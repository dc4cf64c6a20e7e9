import Viiwork.Energy.Reads

/-!
# Viiwork.Energy.Hours

Hour records against the minutes they were computed from.

A lane of the minute ring holds of every slot the last record of the lane's log that went there
(`Logged`). While an hour is the latest, none of its minutes is overwritten by a later one, if the
ring holds an hour at least; so the minutes a roll-up reads are, in some order, the last-written
records of the minutes of the hour (`readRange_perm_minutesOf`). Minutes of other hours leave these
alone, so an hour record stays the sum of its minutes for as long as it is retained.
-/

namespace Viiwork.Energy

open Viiwork.Lib List

variable {cfg : Config} {t : Tier}

/-! ### Logs -/

section Log

variable {R : Type} {ts : R → Int} {lanes : Nat} {l : Fin lanes} {log : List R}
  {r : Ring R (cfg.geometry .minute) lanes}

/-- The slot of the minute ring that a record goes to. -/
def goesTo (cfg : Config) (ts : R → Int) (rec : R) : Nat :=
  slotOf (cfg.slots .minute) (minuteBucket (ts rec))

/-- A lane holds the last record of its log for every slot. -/
def Logged [Inhabited R] (ts : R → Int) (r : Ring R (cfg.geometry .minute) lanes) (l : Fin lanes)
    (log : List R) : Prop :=
  ∀ i, r.cells i l = (lastWith (goesTo cfg ts) i log).getD default

/-- The records of a log that were written last for the minutes of an hour. -/
def minutesOf (ts : R → Int) (log : List R) (hour : Int) : List R :=
  (List.range 60).filterMap fun k : Nat => lastWith ts (hour + 60 * k) log

/-- A log of minutes from the epoch on, oldest first. -/
structure Minutes (ts : R → Int) (log : List R) : Prop where
  sorted : log.Pairwise fun x y => ts x ≤ ts y
  aligned : ∀ x ∈ log, 60 ∣ ts x
  epoch : ∀ x ∈ log, 0 ≤ ts x

theorem minuteBucket_eq {x : Int} (h : 0 ≤ x) : minuteBucket x = x / 60 :=
  Int.tdiv_eq_ediv_of_nonneg h

variable {hour : Int}

/-- **A minute of the latest hour** is in its slot exactly when it was written. -/
theorem Logged.minute [Inhabited R] (h : Logged ts r l log) (hzero : ts default = 0)
    (hlog : Minutes ts log) (hslots : 60 ≤ cfg.slots .minute) (hpos : 0 < hour)
    (hhour : 3600 ∣ hour) (hnow : ∀ x ∈ log, ts x < hour + 3600) {k : Nat} (hk : k < 60) :
    (let cell := r.cells (slotOf (cfg.slots .minute) (hour / 60 + k)) l
      if Ring.within ts hour (hour + 3600) cell then some cell else none) =
      lastWith ts (hour + 60 * k) log := by
  have hslotpos : 0 < cfg.slots .minute := by omega
  have hself : minuteBucket (hour + 60 * k) = hour / 60 + k := by
    rw [minuteBucket_eq (by omega)]
    omega
  -- what shares the slot is the minute itself or a lap older, before the hour
  have hshare : ∀ x ∈ log, goesTo cfg ts x = slotOf (cfg.slots .minute) (hour / 60 + k) →
      ts x = hour + 60 * k ∨ ts x < hour := by
    intro x hx hgoes
    rw [goesTo, minuteBucket_eq (hlog.epoch x hx)] at hgoes
    obtain ⟨laps, hlaps⟩ := (slotOf_eq_iff hslotpos).1 hgoes
    have halign := hlog.aligned x hx
    have hlt := hnow x hx
    by_cases hzero : laps = 0
    · subst hzero
      left
      omega
    · by_cases hneg : laps < 0
      · have : (cfg.slots .minute : Int) * laps ≤ (cfg.slots .minute : Int) * (-1) :=
          Int.mul_le_mul_of_nonneg_left (by omega) (by omega)
        omega
      · have : (cfg.slots .minute : Int) * 1 ≤ (cfg.slots .minute : Int) * laps :=
          Int.mul_le_mul_of_nonneg_left (by omega) (by omega)
        right
        omega
  have hgoes : ∀ x ∈ log, ts x = hour + 60 * k →
      goesTo cfg ts x = slotOf (cfg.slots .minute) (hour / 60 + k) := by
    intro x _ hx
    rw [goesTo, hx, hself]
  simp only [h (slotOf (cfg.slots .minute) (hour / 60 + k))]
  cases hlast : lastWith (goesTo cfg ts) (slotOf (cfg.slots .minute) (hour / 60 + k)) log with
  | none =>
    have hnone : lastWith ts (hour + 60 * k) log = none := by
      rw [lastWith_eq_none_iff] at hlast ⊢
      exact fun x hx hts => hlast x hx (hgoes x hx hts)
    rw [hnone, Option.getD_none, if_neg]
    rw [Ring.within_eq_true, hzero]
    omega
  | some x =>
    obtain ⟨hx, hxgoes⟩ := mem_of_lastWith hlast
    rw [Option.getD_some]
    obtain hts | hold := hshare x hx hxgoes
    · rw [if_pos (Ring.within_eq_true.2 ⟨by omega, by omega⟩)]
      exact (lastWith_of_imp hgoes hlast hts).symm
    · have hnone : lastWith ts (hour + 60 * k) log = none := by
        rw [lastWith_eq_none_iff]
        intro y hy hyts
        have hle := le_of_lastWith hlog.sorted hlast hy (hgoes y hy hyts)
        omega
      rw [hnone, if_neg]
      rw [Ring.within_eq_true]
      omega

/-- **What a roll-up reads of a lane** are the last-written records of the minutes of the hour. -/
theorem readRange_perm_minutesOf [Inhabited R] {le : R → R → Prop} [DecidableRel le]
    (h : Logged ts r l log) (hplaced : Ring.Placed ts r) (hzero : ts default = 0)
    (hlog : Minutes ts log) (hslots : 60 ≤ cfg.slots .minute) (hpos : 0 < hour)
    (hhour : 3600 ∣ hour) (hnow : ∀ x ∈ log, ts x < hour + 3600) {q : R → Bool}
    (hq : ∀ i k, ts (r.cells i k) ≠ 0 → (q (r.cells i k) = true ↔ k = l)) :
    ((r.readRange ts le hour (hour + 3600)).filter q).Perm (minutesOf ts log hour) := by
  have hslotpos : 0 < cfg.slots .minute := by omega
  have hslot : ∀ i, (((List.finRange lanes).map (r.cells i)).filter fun rec =>
      Ring.within ts hour (hour + 3600) rec && q rec) =
      (if Ring.within ts hour (hour + 3600) (r.cells i l) then some (r.cells i l)
        else none).toList := by
    intro i
    rw [Ring.filter_slot hpos hq i, filter_cons, filter_nil]
    split <;> rfl
  have hread : (r.readRange ts le hour (hour + 3600)).Perm
      (r.all.filter (Ring.within ts hour (hour + 3600))) := Ring.readRange_perm hplaced hpos
  have hall := hread.filter q
  rw [filter_filter] at hall
  have hturn := perm_filter_flatMap (turn_nodup hslotpos (hour / 60) hslots)
    (fun i hi => by
      obtain ⟨b, -, -, rfl⟩ := mem_turn.1 hi
      exact slotOf_lt hslotpos b)
    (fun i => (List.finRange lanes).map (r.cells i))
    (fun rec => Ring.within ts hour (hour + 3600) rec && q rec) ?_
  · refine hall.trans ?_
    rw [Ring.all, Ring.readAt, ← range_eq_range', Config.geometry_slots]
    simp only [Bool.and_comm (q _)]
    refine hturn.symm.trans ?_
    rw [filter_flatMap, turn, flatMap_map, minutesOf, filterMap_eq_flatMap_toList]
    simp only [hslot]
    refine List.Perm.of_eq (flatMap_congr ?_)
    intro k hk
    rw [← h.minute hzero hlog hslots hpos hhour hnow (mem_range.1 hk)]
  · -- a record of the hour stands in the slot of one of the hour's minutes
    intro i hi hout
    rw [filter_eq_nil_iff]
    intro rec hrec hin
    obtain ⟨k, -, rfl⟩ := mem_map.1 hrec
    rw [Bool.and_eq_true, Ring.within_eq_true] at hin
    refine hout (mem_turn.2 ⟨(ts (r.cells i k)).tdiv 60, ?_, ?_, hplaced i hi k (by omega)⟩)
    · rw [Int.tdiv_eq_ediv_of_nonneg (by omega)]
      omega
    · rw [Int.tdiv_eq_ediv_of_nonneg (by omega)]
      omega

/-- Records of other hours leave the minutes of an hour alone. -/
theorem minutesOf_append {more : List R} (hmore : ∀ x ∈ more, ts x < hour ∨ hour + 3600 ≤ ts x) :
    minutesOf ts (log ++ more) hour = minutesOf ts log hour := by
  refine filterMap_congr ?_
  intro k hk
  rw [mem_range] at hk
  have hnone : lastWith ts (hour + 60 * k) more = none := by
    rw [lastWith_eq_none_iff]
    intro x hx
    have := hmore x hx
    omega
  rw [lastWith_append, hnone, Option.none_or]

theorem mem_of_mem_minutesOf {x : R} (h : x ∈ minutesOf ts log hour) : x ∈ log := by
  obtain ⟨k, -, hk⟩ := mem_filterMap.1 h
  exact (mem_of_lastWith hk).1

/-- A record of a minute of the hour has a last-written one. -/
theorem minutesOf_ne_nil {x : R} (hx : x ∈ log) (halign : 60 ∣ ts x) (hhour : 3600 ∣ hour)
    (hlo : hour ≤ ts x) (hhi : ts x < hour + 3600) : minutesOf ts log hour ≠ [] := by
  intro hnil
  have hk : ((ts x - hour) / 60).toNat < 60 := by omega
  have hnone := filterMap_eq_nil_iff.1 hnil _ (mem_range.2 hk)
  have hne := lastWith_eq_none_iff.1 hnone x hx
  omega

/-- The covered seconds of an hour's minutes fit. -/
theorem sum_minutesOf_le {covered : R → Nat} (hcov : ∀ x ∈ log, covered x ≤ 60) (hour : Int) :
    ((minutesOf ts log hour).map covered).sum ≤ 3600 := by
  have hlen : (minutesOf ts log hour).length ≤ 60 := by
    have := length_filterMap_le
      (fun k : Nat => lastWith ts (hour + 60 * k) log) (List.range 60)
    simpa [minutesOf] using this
  have hsum := sum_le_card_nsmul ((minutesOf ts log hour).map covered) 60 (by
    intro c hc
    obtain ⟨x, hx, rfl⟩ := mem_map.1 hc
    exact hcov x (mem_of_mem_minutesOf hx))
  rw [length_map, smul_eq_mul] at hsum
  omega

end Log

/-! ### Sums -/

/-- The record stands for the energy and the covered seconds of others. -/
structure NodeRecord.SumOf (r : NodeRecord) (recs : List NodeRecord) : Prop where
  watts : r.watts * r.coveredS = (recs.map fun m => m.watts * (m.coveredS : ℚ)).sum
  coveredS : r.coveredS = (recs.map (·.coveredS)).sum

/-- The record stands for the energies and the covered seconds of others. -/
structure GPURecord.SumOf (r : GPURecord) (recs : List GPURecord) : Prop where
  attrW : r.attrW * r.coveredS = (recs.map fun m => m.attrW * (m.coveredS : ℚ)).sum
  rawW : r.rawW * r.coveredS = (recs.map fun m => m.rawW * (m.coveredS : ℚ)).sum
  coveredS : r.coveredS = (recs.map (·.coveredS)).sum

/-- The mean times the covered seconds is the sum it was taken of. -/
theorem mean_mul_covered {R : Type} {watts : R → ℚ} {covered : R → Nat} {recs : List R}
    (h : (recs.map covered).sum ≤ 65535) :
    (if 0 < (recs.map covered).sum then
        (recs.map fun m => watts m * (covered m : ℚ)).sum / ((recs.map covered).sum : Nat)
      else 0) * (clampCovered (recs.map covered).sum : Nat) =
      (recs.map fun m => watts m * (covered m : ℚ)).sum := by
  rw [clampCovered, Nat.min_eq_left h]
  split
  · rename_i hpos
    rw [div_mul_cancel₀]
    exact_mod_cast hpos.ne'
  · -- nothing was covered, so every product is zero
    rename_i hzero
    rw [zero_mul, eq_comm]
    refine sum_eq_zero ?_
    intro x hx
    obtain ⟨m, hm, rfl⟩ := mem_map.1 hx
    have hle := single_le_sum (fun c _ => Nat.zero_le c) _
      (mem_map.2 ⟨m, hm, rfl⟩ : covered m ∈ recs.map covered)
    have hcov : covered m = 0 := by omega
    rw [hcov, Nat.cast_zero, mul_zero]

theorem aggregateNode_sumOf {recs mins : List NodeRecord} (hperm : recs.Perm mins)
    (h : (mins.map (·.coveredS)).sum ≤ 3600) (startTS : Int) :
    (aggregateNode recs startTS).SumOf mins := by
  have hcov := (hperm.map (·.coveredS)).sum_eq
  constructor
  · rw [← (hperm.map fun m => m.watts * (m.coveredS : ℚ)).sum_eq]
    exact mean_mul_covered (by omega)
  · rw [← hcov]
    exact Nat.min_eq_left (by omega)

theorem aggregateGPU_sumOf {recs mins : List GPURecord} (hperm : recs.Perm mins)
    (hne : recs ≠ []) (h : (mins.map (·.coveredS)).sum ≤ 3600) (startTS : Int) :
    (aggregateGPU recs startTS).SumOf mins := by
  have hcov := (hperm.map (·.coveredS)).sum_eq
  cases recs with
  | nil => exact absurd rfl hne
  | cons first rest =>
    constructor
    · rw [← (hperm.map fun m => m.attrW * (m.coveredS : ℚ)).sum_eq]
      exact mean_mul_covered (by omega)
    · rw [← (hperm.map fun m => m.rawW * (m.coveredS : ℚ)).sum_eq]
      exact mean_mul_covered (by omega)
    · rw [← hcov]
      exact Nat.min_eq_left (by omega)

/-! ### Runs -/

/-- What happens to a store. -/
inductive Act where
  | writeMinute (m : Minute)
  | reopen

namespace Store

def act (s : Store cfg) : Act → Store cfg
  | .writeMinute m => s.writeMinute m
  | .reopen => s.reopen

/-- The store after the acts, from new files. -/
def after (cfg : Config) (acts : List Act) : Store cfg := acts.foldl act (new cfg)

end Store

/-- The minutes of a run. -/
def minutes (acts : List Act) : List Minute :=
  acts.filterMap fun
    | .writeMinute m => some m
    | .reopen => none

/-- The node records of the minutes, in the order of the writes. -/
def nodeLog (ms : List Minute) : List NodeRecord := ms.map (·.node)

/-- The records of a lane, in the order of the writes. -/
def gpuLog (cfg : Config) (l : Fin cfg.gpuIDs.length) (ms : List Minute) : List GPURecord :=
  ms.flatMap fun m => laneRecs cfg l m.gpus

/-- A minute-aligned call with its own minute's records of configured GPUs. -/
structure Regular (cfg : Config) (m : Minute) : Prop where
  aligned : 60 ∣ m.node.ts
  covered : m.node.coveredS ≤ 60
  gpus : ∀ g ∈ m.gpus, (cfg.gpuLane g.gpuID).isSome ∧ g.ts = m.node.ts ∧ g.coveredS ≤ 60

/-- Minutes written in order. -/
structure Ordered (cfg : Config) (ms : List Minute) : Prop where
  regular : ∀ m ∈ ms, Regular cfg m
  sorted : ms.Pairwise fun m m' => m.node.ts ≤ m'.node.ts
  epoch : ∀ m ∈ ms, 0 ≤ m.node.ts

section Run

variable {ms : List Minute} {m m' : Minute} {l : Fin cfg.gpuIDs.length} {g : GPURecord}

theorem mem_gpuLog : g ∈ gpuLog cfg l ms ↔ ∃ m ∈ ms, g ∈ m.gpus ∧ cfg.gpuLane g.gpuID = some l := by
  simp [gpuLog, laneRecs]

theorem gpuLog_concat : gpuLog cfg l (ms ++ [m]) = gpuLog cfg l ms ++ laneRecs cfg l m.gpus := by
  simp [gpuLog]

theorem Ordered.nodeLog (h : Ordered cfg ms) : Minutes NodeRecord.ts (nodeLog ms) where
  sorted := pairwise_map.2 h.sorted
  aligned := forall_mem_map.2 fun m hm => (h.regular m hm).aligned
  epoch := forall_mem_map.2 h.epoch

theorem Ordered.gpu_ts (h : Ordered cfg ms) (hm : m ∈ ms) (hg : g ∈ laneRecs cfg l m.gpus) :
    g.ts = m.node.ts :=
  ((h.regular m hm).gpus g (mem_filter.1 hg).1).2.1

theorem Ordered.gpuLog (h : Ordered cfg ms) : Minutes GPURecord.ts (gpuLog cfg l ms) where
  sorted := by
    refine pairwise_flatMap.2 ⟨?_, ?_⟩
    · intro m hm
      refine pairwise_of_forall_mem_list ?_
      intro g hg g' hg'
      rw [h.gpu_ts hm hg, h.gpu_ts hm hg']
    · refine h.sorted.imp_of_mem ?_
      intro m m' hm hm' hle g hg g' hg'
      rw [h.gpu_ts hm hg, h.gpu_ts hm' hg']
      exact hle
  aligned g hg := by
    obtain ⟨m, hm, hg⟩ := mem_flatMap.1 hg
    rw [h.gpu_ts hm hg]
    exact (h.regular m hm).aligned
  epoch g hg := by
    obtain ⟨m, hm, hg⟩ := mem_flatMap.1 hg
    rw [h.gpu_ts hm hg]
    exact h.epoch m hm

/-- **The invariant**: the minute rings are the last of the logs, and every hour record with a time
stamp is the sum of its minutes. -/
structure HourSums (s : Store cfg) (ms : List Minute) : Prop where
  sound : s.Sound
  nodeLog : Logged NodeRecord.ts s.nodeMinute 0 (nodeLog ms)
  gpuLog : ∀ l, Logged GPURecord.ts s.gpuMinute l (gpuLog cfg l ms)
  nodeAligned : ∀ i, 3600 ∣ (s.nodeHour.cells i 0).ts
  gpuAligned : ∀ i l, 3600 ∣ (s.gpuHour.cells i l).ts
  nodeHour : ∀ i < cfg.slots .hour, (s.nodeHour.cells i 0).ts ≠ 0 →
    (s.nodeHour.cells i 0).SumOf
      (minutesOf NodeRecord.ts (Energy.nodeLog ms) (s.nodeHour.cells i 0).ts)
  gpuHour : ∀ i < cfg.slots .hour, ∀ l, (s.gpuHour.cells i l).ts ≠ 0 →
    (s.gpuHour.cells i l).SumOf
      (minutesOf GPURecord.ts (Energy.gpuLog cfg l ms) (s.gpuHour.cells i l).ts)

theorem logged_put {s : Store cfg} (h : Logged NodeRecord.ts s.nodeMinute 0 (nodeLog ms)) :
    Logged NodeRecord.ts (s.putMinute m).nodeMinute 0 (nodeLog (ms ++ [m])) := by
  intro i
  rw [nodeLog, map_append, lastWith_append]
  show (s.nodeMinute.put (minuteBucket m.node.ts) 0 m.node).cells i 0 = _
  rw [Ring.put_cells, Config.geometry_slots, h i, nodeLog]
  by_cases hi : slotOf (cfg.slots .minute) (minuteBucket m.node.ts) = i
  · simp [lastWith, goesTo, hi]
  · simp [lastWith, goesTo, hi, Ne.symm hi]

theorem logged_putLanes {s : Store cfg} (h : Logged GPURecord.ts s.gpuMinute l (gpuLog cfg l ms))
    (hm : ∀ g ∈ m.gpus, g.ts = m.node.ts) :
    Logged GPURecord.ts (s.putMinute m).gpuMinute l (gpuLog cfg l (ms ++ [m])) := by
  intro i
  rw [gpuLog_concat, lastWith_append]
  show (putLanes s.gpuMinute (minuteBucket m.node.ts) _).cells i l = _
  have hlast : lastFor cfg l (m.gpus.map fun g => (g.gpuID, g)) =
      lastWith (fun g => cfg.gpuLane g.gpuID) (some l) m.gpus := by
    rw [lastFor, lastWith_map, Option.map_map]
    exact Option.map_id_apply
  rw [putLanes_cells, hlast, h i]
  by_cases hi : slotOf (cfg.slots .minute) (minuteBucket m.node.ts) = i
  · have hwith : lastWith (goesTo cfg GPURecord.ts) i (laneRecs cfg l m.gpus) =
        lastWith (fun g => cfg.gpuLane g.gpuID) (some l) m.gpus := by
      refine lastWith_filter ?_
      intro g hg _
      rw [goesTo, hm g hg, hi]
    rw [if_pos hi.symm, hwith]
    cases lastWith (fun g => cfg.gpuLane g.gpuID) (some l) m.gpus <;> rfl
  · have hwith : lastWith (goesTo cfg GPURecord.ts) i (laneRecs cfg l m.gpus) = none := by
      rw [lastWith_eq_none_iff]
      intro g hg
      rw [goesTo, hm g (mem_filter.1 hg).1]
      exact hi
    rw [if_neg (Ne.symm hi), hwith, Option.none_or]

theorem hourSums_new : HourSums (Store.new cfg) [] where
  sound := Store.sound_new
  nodeLog _ := rfl
  gpuLog _ _ := rfl
  nodeAligned _ := Int.dvd_zero 3600
  gpuAligned _ _ := Int.dvd_zero 3600
  nodeHour _ _ h := absurd rfl h
  gpuHour _ _ _ h := absurd rfl h

theorem hourStart_dvd (ts : Int) : 3600 ∣ hourStart ts := by
  unfold hourStart
  omega

theorem hourStart_bounds (ts : Int) : hourStart ts ≤ ts ∧ ts < hourStart ts + 3600 := by
  unfold hourStart
  omega

/-- An hour that is not the minute's is before or after it. -/
theorem not_in_hour {ts hour : Int} (hhour : 3600 ∣ hour) (hne : hour ≠ hourStart ts) :
    ts < hour ∨ hour + 3600 ≤ ts := by
  unfold hourStart at hne
  omega

section

variable (h : Ordered cfg (ms ++ [m]))
include h

theorem Ordered.of_concat : Ordered cfg ms where
  regular m' hm' := h.regular m' (mem_append_left _ hm')
  sorted := (pairwise_append.1 h.sorted).1
  epoch m' hm' := h.epoch m' (mem_append_left _ hm')

theorem Ordered.le_last (hm' : m' ∈ ms ++ [m]) : m'.node.ts ≤ m.node.ts := by
  rw [mem_append, mem_singleton] at hm'
  obtain hm' | rfl := hm'
  · exact (pairwise_append.1 h.sorted).2.2 m' hm' m (mem_singleton.2 rfl)
  · exact Int.le_refl _

/-- No minute is after the hour of the last. -/
theorem Ordered.lt_hour_end (hm' : m' ∈ ms ++ [m]) : m'.node.ts < hourStart m.node.ts + 3600 :=
  Int.lt_of_le_of_lt (h.le_last hm') (hourStart_bounds m.node.ts).2

theorem Ordered.last_gpus : ∀ g ∈ m.gpus, g.ts = m.node.ts :=
  fun g hg => ((h.regular m (by simp)).gpus g hg).2.1

theorem Ordered.sameMinute : Store.SameMinute m :=
  ⟨h.epoch m (by simp), fun g hg => by rw [h.last_gpus g hg]⟩

/-- The hour of the last minute, when it is not the epoch's. -/
theorem Ordered.hour_pos (hne : hourStart m.node.ts ≠ 0) : 0 < hourStart m.node.ts := by
  have hnonneg := h.epoch m (by simp)
  unfold hourStart at hne ⊢
  omega

end

variable {i : Nat}

/-- A retained hour in another slot is another hour. -/
theorem ne_hourStart {ts hour : Int} (hts : 0 ≤ ts) {n : Nat}
    (hplaced : slotOf n (hour.tdiv 3600) = i) (hi : i ≠ slotOf n (hourBucket ts)) :
    hour ≠ hourStart ts := by
  intro heq
  rw [heq, hourStart_tdiv hts] at hplaced
  exact hi hplaced.symm

variable {s : Store cfg}

section

variable (h : HourSums s ms) (hslots : 60 ≤ cfg.slots .minute) (hord : Ordered cfg (ms ++ [m]))
include h hslots hord

/-- What the roll-up reads of the node is the hour's minutes. -/
theorem HourSums.read_node (hne : hourStart m.node.ts ≠ 0) :
    (s.hourNodes m).Perm
      (minutesOf NodeRecord.ts (Energy.nodeLog (ms ++ [m])) (hourStart m.node.ts)) := by
  rw [← filter_true (s.hourNodes m)]
  refine readRange_perm_minutesOf (logged_put h.nodeLog)
    ((h.sound .minute).putMinute fun _ => hord.sameMinute).node rfl hord.nodeLog hslots
    (hord.hour_pos hne) (hourStart_dvd _) ?_ ?_
  · intro x hx
    obtain ⟨m', hm', rfl⟩ := mem_map.1 hx
    exact hord.lt_hour_end hm'
  · intro i k _
    simp [Subsingleton.elim k 0]

/-- What the roll-up reads of a lane is the hour's minutes. -/
theorem HourSums.read_gpu (hne : hourStart m.node.ts ≠ 0) (l : Fin cfg.gpuIDs.length) :
    (s.hourLane m l).Perm
      (minutesOf GPURecord.ts (Energy.gpuLog cfg l (ms ++ [m])) (hourStart m.node.ts)) := by
  have hsound := (h.sound .minute).putMinute fun _ => hord.sameMinute
  refine readRange_perm_minutesOf (logged_putLanes (h.gpuLog l) hord.last_gpus)
    hsound.gpu rfl hord.gpuLog hslots (hord.hour_pos hne) (hourStart_dvd _) ?_ ?_
  · intro x hx
    obtain ⟨m', hm', hg⟩ := mem_flatMap.1 hx
    rw [hord.gpu_ts hm' hg]
    exact hord.lt_hour_end hm'
  · intro i k hts
    have hlane := hsound.laned i k hts
    rw [decide_eq_true_eq]
    exact ⟨fun hk => Option.some.inj (hlane.symm.trans hk), fun hk => hk ▸ hlane⟩

/-- The hour records of the node after a minute. -/
theorem HourSums.node_step (hi : i < cfg.slots .hour)
    (hne : ((s.writeMinute m).nodeHour.cells i 0).ts ≠ 0) :
    ((s.writeMinute m).nodeHour.cells i 0).SumOf (minutesOf NodeRecord.ts
      (Energy.nodeLog (ms ++ [m])) ((s.writeMinute m).nodeHour.cells i 0).ts) := by
  have hcell := writeMinute_nodeHour s m i
  by_cases hslot : i = slotOf (cfg.slots .hour) (hourBucket m.node.ts)
  · rw [if_pos hslot] at hcell
    rw [hcell] at hne ⊢
    refine aggregateNode_sumOf (h.read_node hslots hord hne) (sum_minutesOf_le ?_ _) _
    intro x hx
    obtain ⟨m', hm', rfl⟩ := mem_map.1 hx
    exact (hord.regular m' hm').covered
  · -- another slot holds another hour, which the minute is no part of
    rw [if_neg hslot] at hcell
    rw [hcell] at hne ⊢
    have hother := ne_hourStart (hord.epoch m (by simp)) ((h.sound .hour).node i hi 0 hne) hslot
    show (s.nodeHour.cells i 0).SumOf (minutesOf _ _ (s.nodeHour.cells i 0).ts)
    rw [Energy.nodeLog, map_append, minutesOf_append]
    · exact h.nodeHour i hi hne
    · intro x hx
      obtain rfl : x = m.node := by simpa using hx
      exact not_in_hour (h.nodeAligned i) hother

omit hslots in
/-- A lane that the roll-up leaves alone keeps a sum that the minute is no part of. -/
theorem HourSums.gpu_kept (hi : i < cfg.slots .hour) (hne : (s.gpuHour.cells i l).ts ≠ 0)
    (hout : (s.gpuHour.cells i l).ts ≠ hourStart m.node.ts ∨ laneRecs cfg l m.gpus = []) :
    (s.gpuHour.cells i l).SumOf (minutesOf GPURecord.ts (Energy.gpuLog cfg l (ms ++ [m]))
      (s.gpuHour.cells i l).ts) := by
  rw [gpuLog_concat, minutesOf_append]
  · exact h.gpuHour i hi l hne
  · intro x hx
    obtain hother | hnil := hout
    · rw [hord.gpu_ts (by simp) hx]
      exact not_in_hour (h.gpuAligned i l) hother
    · rw [hnil] at hx
      cases hx

/-- A lane without minutes in the hour gets none by the call. -/
theorem HourSums.laneRecs_eq_nil (hne : hourStart m.node.ts ≠ 0) (hnil : s.hourLane m l = []) :
    laneRecs cfg l m.gpus = [] := by
  have hperm := h.read_gpu hslots hord hne l
  rw [hnil] at hperm
  rw [eq_nil_iff_forall_not_mem]
  intro g hg
  have hgts : g.ts = m.node.ts := hord.gpu_ts (by simp) hg
  have hmem : g ∈ Energy.gpuLog cfg l (ms ++ [m]) := by
    rw [gpuLog_concat]
    exact mem_append_right _ hg
  have hbounds := hourStart_bounds m.node.ts
  refine minutesOf_ne_nil hmem ?_ (hourStart_dvd m.node.ts) ?_ ?_ hperm.nil_eq.symm
  · rw [hgts]
    exact (hord.regular m (by simp)).aligned
  · omega
  · omega

/-- The hour records of a lane after a minute. -/
theorem HourSums.gpu_step (hi : i < cfg.slots .hour)
    (hne : ((s.writeMinute m).gpuHour.cells i l).ts ≠ 0) :
    ((s.writeMinute m).gpuHour.cells i l).SumOf (minutesOf GPURecord.ts
      (Energy.gpuLog cfg l (ms ++ [m])) ((s.writeMinute m).gpuHour.cells i l).ts) := by
  have hcell := writeMinute_gpuHour s m l i
  by_cases hnew : i = slotOf (cfg.slots .hour) (hourBucket m.node.ts) ∧ s.hourLane m l ≠ []
  · rw [if_pos hnew] at hcell
    rw [hcell, aggregateGPU_ts] at hne ⊢
    refine aggregateGPU_sumOf (h.read_gpu hslots hord hne l) hnew.2 (sum_minutesOf_le ?_ _) _
    intro x hx
    obtain ⟨m', hm', hx, -⟩ := mem_gpuLog.1 hx
    exact ((hord.regular m' hm').gpus x hx).2.2
  · rw [if_neg hnew] at hcell
    rw [hcell] at hne ⊢
    refine h.gpu_kept hord hi hne ?_
    by_cases hsame : (s.gpuHour.cells i l).ts = hourStart m.node.ts
    · -- the slot is the hour's own, so the lane had no minute to read
      have hslot : i = slotOf (cfg.slots .hour) (hourBucket m.node.ts) := by
        by_contra hslot
        exact ne_hourStart (hord.epoch m (by simp)) ((h.sound .hour).gpu i hi l hne) hslot hsame
      right
      have hnil := not_not.1 fun hnil => hnew ⟨hslot, hnil⟩
      exact h.laneRecs_eq_nil hslots hord (hsame ▸ hne) hnil
    · exact .inl hsame

/-- **Step lemma.** -/
theorem HourSums.writeMinute : HourSums (s.writeMinute m) (ms ++ [m]) where
  sound t := (h.sound t).writeMinute (hord.epoch m (by simp)) fun _ => hord.sameMinute
  nodeLog := logged_put h.nodeLog
  gpuLog l := logged_putLanes (h.gpuLog l) hord.last_gpus
  nodeAligned i := by
    rw [writeMinute_nodeHour]
    split
    · exact hourStart_dvd _
    · exact h.nodeAligned i
  gpuAligned i l := by
    rw [writeMinute_gpuHour s m l i]
    split
    · rw [aggregateGPU_ts]
      exact hourStart_dvd _
    · exact h.gpuAligned i l
  nodeHour _ hi hne := h.node_step hslots hord hi hne
  gpuHour _ hi _ hne := h.gpu_step hslots hord hi hne

end

/-- **Run lemma.** -/
theorem hourSums_after (hslots : 60 ≤ cfg.slots .minute) {acts : List Act}
    (h : Ordered cfg (minutes acts)) : HourSums (Store.after cfg acts) (minutes acts) := by
  induction acts using List.reverseRecOn with
  | nil => exact hourSums_new
  | append_singleton acts a ih =>
    rw [Store.after, foldl_append]
    cases a with
    | writeMinute m =>
      have hms : minutes (acts ++ [.writeMinute m]) = minutes acts ++ [m] := by
        simp [minutes]
      rw [hms] at h ⊢
      exact (ih h.of_concat).writeMinute hslots h
    | reopen =>
      have hms : minutes (acts ++ [.reopen]) = minutes acts := by simp [minutes]
      rw [hms] at h ⊢
      show HourSums (Store.after cfg acts).reopen _
      rw [Store.reopen_eq]
      exact ih h

/-- **Hour records are the sum of their minutes**, in every run whose minutes are from the epoch
on. -/
theorem hours_exact (hslots : 60 ≤ cfg.slots .minute) {acts : List Act}
    (hregular : ∀ m ∈ minutes acts, Regular cfg m)
    (hsorted : (minutes acts).Pairwise fun m m' => m.node.ts ≤ m'.node.ts)
    (hepoch : ∀ m ∈ minutes acts, 0 ≤ m.node.ts) {i : Nat} (hi : i < cfg.slots .hour) :
    (∀ hour, (Store.after cfg acts).nodeHour.cells i 0 = hour → hour.ts ≠ 0 →
        hour.SumOf (minutesOf NodeRecord.ts (Energy.nodeLog (minutes acts)) hour.ts)) ∧
      ∀ l hour, (Store.after cfg acts).gpuHour.cells i l = hour → hour.ts ≠ 0 →
        hour.SumOf (minutesOf GPURecord.ts (Energy.gpuLog cfg l (minutes acts)) hour.ts) := by
  have h := hourSums_after hslots ⟨hregular, hsorted, hepoch⟩
  constructor
  · intro hour heq
    subst heq
    exact h.nodeHour i hi
  · intro l hour heq
    subst heq
    exact h.gpuHour i hi l

end Run

/-- A node with one GPU, in UTC, whose minute ring holds an hour. -/
def hourly : Config where
  gpuIDs := [0]
  slots := fun _ => 60
  location := .fixed 0
  gpuIDs_ne := oneID_ne
  slots_pos := fun _ => by decide

/-- Its GPU's lane. -/
def hourlyLane : Fin hourly.gpuIDs.length := ⟨0, by decide⟩

/-- A minute, the next one, and after a restart the next one again. -/
def repeated : List Act :=
  [.writeMinute ⟨⟨3600, 100, 60⟩, [⟨3600, 0, 1, 40, 50, 60⟩]⟩,
    .writeMinute ⟨⟨3660, 200, 30⟩, [⟨3660, 0, 1, 80, 90, 30⟩]⟩, .reopen,
    .writeMinute ⟨⟨3660, 300, 60⟩, [⟨3660, 0, 1, 90, 99, 60⟩]⟩]

theorem hours_exact_repeated :
    ((Store.after hourly repeated).nodeHour.cells 1 0).SumOf (minutesOf NodeRecord.ts
        (nodeLog (minutes repeated)) ((Store.after hourly repeated).nodeHour.cells 1 0).ts) ∧
      ((Store.after hourly repeated).gpuHour.cells 1 hourlyLane).SumOf (minutesOf GPURecord.ts
        (gpuLog hourly hourlyLane (minutes repeated))
        ((Store.after hourly repeated).gpuHour.cells 1 hourlyLane).ts) := by
  have hregular : ∀ m ∈ minutes repeated, Regular hourly m := by
    intro m hm
    simp only [minutes, repeated, filterMap_cons, filterMap_nil, mem_cons,
      not_mem_nil, or_false] at hm
    obtain rfl | rfl | rfl := hm <;> exact ⟨by decide, by decide, by decide +kernel⟩
  have h := hours_exact (show 60 ≤ hourly.slots .minute by decide) hregular
    (by simp [minutes, repeated]) (by simp [minutes, repeated])
    (show 1 < hourly.slots .hour by decide)
  exact ⟨h.1 _ rfl (by decide +kernel), h.2 hourlyLane _ rfl (by decide +kernel)⟩

/-- Before the epoch the first minute of an hour has a bucket of its own, whose record stays the
hour's and never gets the other minutes. -/
theorem hours_exact_epoch :
    let acts := [Act.writeMinute ⟨⟨-3600, 100, 60⟩, []⟩, .writeMinute ⟨⟨-3540, 100, 60⟩, []⟩]
    (Store.after hourly acts).nodeHour.cells 59 0 = ⟨-3600, 100, 60⟩ ∧
      ¬ ((Store.after hourly acts).nodeHour.cells 59 0).SumOf
        (minutesOf NodeRecord.ts (nodeLog (minutes acts)) (-3600)) := by
  intro acts
  have hcell : (Store.after hourly acts).nodeHour.cells 59 0 = ⟨-3600, 100, 60⟩ := by
    decide +kernel
  refine ⟨hcell, ?_⟩
  intro h
  have hsum := h.coveredS
  rw [hcell] at hsum
  exact absurd hsum (by decide +kernel)

end Viiwork.Energy
