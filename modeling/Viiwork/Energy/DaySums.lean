import Viiwork.Energy.Reads

/-!
# Viiwork.Energy.DaySums

Day records against the hour records they were computed from, in a zone at a fixed offset.

A minute changes one hour of a lane and computes the day of the minute anew. With an offset of whole
hours that hour lies in that day, so no other day sees the change, unless it loses an hour to it:
the slot of the hour may have held an hour of another day. A day whose hours are all still there
(`Kept`) therefore stays the aggregate of its hours (`DayLane.step`).

With another offset an hour that straddles a local midnight belongs to the day before by its time
stamp, while its later minutes compute the day after anew.
-/

namespace Viiwork.Energy

open Viiwork.Lib List

variable {cfg : Config}

/-! ### One lane -/

section Lane

variable {R : Type} {ts : R → Int} {le : R → R → Prop} [DecidableRel le]
  {agg : List R → Int → R} {lanes : Nat} {l : Fin lanes}
  {past : List (Ring R (cfg.geometry .hour) lanes)} {hour hour' : Ring R (cfg.geometry .hour) lanes}
  {day day' : Ring R (cfg.geometry .day) lanes} {lo hi : Int}

/-- Every hour that the lane ever had in the range still has a record. -/
def Kept (ts : R → Int) (past : List (Ring R (cfg.geometry .hour) lanes))
    (now : Ring R (cfg.geometry .hour) lanes) (l : Fin lanes) (lo hi : Int) : Prop :=
  ∀ r ∈ past, ∀ x ∈ r.lane l, lo ≤ ts x → ts x < hi → ∃ y ∈ now.lane l, ts y = ts x

instance (past : List (Ring R (cfg.geometry .hour) lanes)) (now : Ring R (cfg.geometry .hour) lanes)
    (l : Fin lanes) (lo hi : Int) : Decidable (Kept ts past now l lo hi) :=
  inferInstanceAs (Decidable (∀ r ∈ past, ∀ x ∈ r.lane l, _))

/-- The days of a lane: every record of a day is a local midnight's, had an hour, and is the
aggregate of the hours of the day if they are all still there. -/
structure DayLane (cfg : Config) (ts : R → Int) (le : R → R → Prop) [DecidableRel le]
    (agg : List R → Int → R) (offset : Int) (past : List (Ring R (cfg.geometry .hour) lanes))
    (hour : Ring R (cfg.geometry .hour) lanes) (day : Ring R (cfg.geometry .day) lanes)
    (l : Fin lanes) : Prop where
  now : hour ∈ past
  pos : ∀ x ∈ day.lane l, ts x ≠ 0 → 0 < ts x
  midnight : ∀ x ∈ day.lane l, ts x ≠ 0 → 86400 ∣ ts x + offset
  held : ∀ x ∈ day.lane l, ts x ≠ 0 →
    ∃ r ∈ past, ∃ y ∈ r.lane l, ts x ≤ ts y ∧ ts y < ts x + 86400
  exact : ∀ x ∈ day.lane l, ts x ≠ 0 → Kept ts past hour l (ts x) (ts x + 86400) →
    x = agg (hour.laneScan ts le l (ts x) (ts x + 86400)) (ts x)

/-- A cell of the hours changes only into one of the hour `start`. -/
def ChangesTo (ts : R → Int) (hour hour' : Ring R (cfg.geometry .hour) lanes) (l : Fin lanes)
    (start : Int) : Prop :=
  ∀ i, hour'.cells i l = hour.cells i l ∨ ts (hour'.cells i l) = start

variable {start : Int}

section

variable (h : ChangesTo ts hour hour' l start) (hout : start < lo ∨ hi ≤ start)
include h hout

/-- What is in the range after a change to an hour outside was there before. -/
theorem ChangesTo.mem_lane {y : R} (hy : y ∈ hour'.lane l) (hlo : lo ≤ ts y) (hhi : ts y < hi) :
    ∃ i < cfg.slots .hour, hour'.cells i l = y ∧ hour.cells i l = y := by
  obtain ⟨i, hslots, rfl⟩ := Ring.mem_lane.1 hy
  refine ⟨i, hslots, rfl, ?_⟩
  obtain hsame | hstart := h i
  · exact hsame.symm
  · omega

/-- A range that has lost no hour to the change was complete before. -/
theorem ChangesTo.kept (hkept : Kept ts (past ++ [hour']) hour' l lo hi) :
    Kept ts past hour l lo hi := by
  intro r hr x hx hlo hhi
  obtain ⟨y, hy, hts⟩ := hkept r (mem_append_left _ hr) x hx hlo hhi
  obtain ⟨i, hi, -, hcell⟩ := h.mem_lane hout hy (by omega) (by omega)
  exact ⟨y, Ring.mem_lane.2 ⟨i, hi, hcell⟩, hts⟩

/-- **A change elsewhere** leaves a range that has lost no hour to it as it was. -/
theorem ChangesTo.laneScan_eq (hplaced : Ring.Placed ts hour) (hnow : hour ∈ past) (hpos : 0 < lo)
    (hkept : Kept ts (past ++ [hour']) hour' l lo hi) :
    hour'.laneScan ts le l lo hi = hour.laneScan ts le l lo hi := by
  unfold Ring.laneScan Ring.lane
  rw [map_eq_flatMap, map_eq_flatMap, filter_flatMap, filter_flatMap]
  congr 1
  refine flatMap_congr ?_
  intro i hslots
  rw [mem_range] at hslots
  obtain hsame | hstart := h i
  · rw [hsame]
  -- a changed cell is outside, and what it held was outside too: its hour has no other slot
  have hafter : Ring.within ts lo hi (hour'.cells i l) = false := by
    rw [← Bool.not_eq_true, Ring.within_eq_true]
    omega
  by_cases hin : Ring.within ts lo hi (hour.cells i l) = true
  · rw [Ring.within_eq_true] at hin
    obtain ⟨y, hy, hts⟩ := hkept hour (mem_append_left _ hnow) (hour.cells i l)
      (Ring.mem_lane.2 ⟨i, hslots, rfl⟩) hin.1 hin.2
    obtain ⟨j, hj, hcell', hcell⟩ := h.mem_lane hout hy (by omega) (by omega)
    have hslot : i = j := by
      have hplace := hplaced j hj l (by rw [hcell]; omega)
      rw [hcell, hts, hplaced i hslots l (by omega)] at hplace
      exact hplace
    subst hslot
    rw [hcell', hcell]
  · rw [Bool.not_eq_true] at hin
    rw [filter_cons, filter_cons, hafter, hin]
    rfl

end

/-- The local midnight before an instant. -/
def dayStart (offset now : Int) : Int := 86400 * ((now + offset) / 86400) - offset

/-- **Step lemma** of a lane: the hour of an instant changes, and the day of the instant is computed
anew if it has hours. -/
theorem DayLane.step {offset now : Int} (h : DayLane cfg ts le agg offset past hour day l)
    (hoffset : 3600 ∣ offset) (hpos : 0 < dayStart offset now)
    (hplaced : Ring.Placed ts hour) (hdays : Ring.Placed ts day)
    (hagg : ∀ recs start, ts (agg recs start) = start)
    (hhour : ChangesTo ts hour hour' l (hourStart now))
    (hday : RolledUp agg l ((dayStart offset now).tdiv 86400) (dayStart offset now)
      (hour'.laneScan ts le l (dayStart offset now) (dayStart offset now + 86400)) day day') :
    DayLane cfg ts le agg offset (past ++ [hour']) hour' day' l := by
  generalize hstart : dayStart offset now = start at hpos hday
  unfold dayStart at hstart
  have hnow : hour' ∈ past ++ [hour'] := by simp
  -- a record of the days is the new one, or one of before whose slot was not written
  have hcases : ∀ x ∈ day'.lane l,
      (x = agg (hour'.laneScan ts le l start (start + 86400)) start ∧
        hour'.laneScan ts le l start (start + 86400) ≠ []) ∨
      (x ∈ day.lane l ∧
        (ts x = start → hour'.laneScan ts le l start (start + 86400) = [])) := by
    intro x hx
    obtain ⟨i, hi, rfl⟩ := Ring.mem_lane.1 hx
    have hcell := hday i
    by_cases hnew : i = slotOf (cfg.slots .day) (start.tdiv 86400) ∧
        hour'.laneScan ts le l start (start + 86400) ≠ []
    · left
      exact ⟨hcell.trans (if_pos hnew), hnew.2⟩
    · right
      have hsame : day'.cells i l = day.cells i l := hcell.trans (if_neg hnew)
      refine ⟨Ring.mem_lane.2 ⟨i, hi, hsame.symm⟩, ?_⟩
      intro hts
      by_contra hne
      rw [hsame] at hts
      refine hnew ⟨?_, hne⟩
      have hplace := hdays i hi l (by omega)
      rw [hts] at hplace
      exact hplace.symm
  constructor
  · exact hnow
  · intro x hx hne
    obtain ⟨rfl, -⟩ | ⟨hold, -⟩ := hcases x hx
    · rw [hagg]
      exact hpos
    · exact h.pos x hold hne
  · intro x hx hne
    obtain ⟨rfl, -⟩ | ⟨hold, -⟩ := hcases x hx
    · rw [hagg]
      omega
    · exact h.midnight x hold hne
  · intro x hx hne
    obtain ⟨rfl, hscan⟩ | ⟨hold, -⟩ := hcases x hx
    · obtain ⟨y, hy⟩ := exists_mem_of_ne_nil _ hscan
      obtain ⟨hcell, hin⟩ := Ring.mem_laneScan.1 hy
      rw [hagg]
      exact ⟨hour', hnow, y, Ring.mem_lane.2 hcell, hin⟩
    · obtain ⟨r, hr, y, hy, hin⟩ := h.held x hold hne
      exact ⟨r, mem_append_left _ hr, y, hy, hin⟩
  · intro x hx hne hkept
    obtain ⟨hx, -⟩ | ⟨hold, hempty⟩ := hcases x hx
    · rw [hx, hagg]
    have hxpos := h.pos x hold hne
    have hxday := h.midnight x hold hne
    by_cases hsame : ts x = start
    · -- the day of the instant has an hour, so it was computed anew
      obtain ⟨r, hr, y, hy, hylo, hyhi⟩ := h.held x hold hne
      obtain ⟨z, hz, hzts⟩ := hkept r (mem_append_left _ hr) y hy hylo hyhi
      have hmem : z ∈ hour'.laneScan ts le l start (start + 86400) :=
        Ring.mem_laneScan.2 ⟨Ring.mem_lane.1 hz, by omega, by omega⟩
      rw [hempty hsame] at hmem
      cases hmem
    · have hout : hourStart now < ts x ∨ ts x + 86400 ≤ hourStart now := by
        unfold hourStart
        omega
      rw [hhour.laneScan_eq hout hplaced h.now hxpos hkept]
      exact h.exact x hold hne (hhour.kept hout hkept)

end Lane

/-! ### The store -/

namespace Store

/-- The store after the calls, from new files. -/
def wrote (cfg : Config) (calls : List Minute) : Store cfg :=
  calls.foldl Store.writeMinute (new cfg)

theorem wrote_concat (calls : List Minute) (m : Minute) :
    wrote cfg (calls ++ [m]) = (wrote cfg calls).writeMinute m := by
  rw [wrote, foldl_append]
  rfl

/-- The hours of the node after each of the calls. -/
def nodeHours (cfg : Config) (calls : List Minute) : List (cfg.NodeRing .hour) :=
  calls.inits.map fun pre => (wrote cfg pre).nodeHour

/-- The hours of the GPUs after each of the calls. -/
def gpuHours (cfg : Config) (calls : List Minute) : List (cfg.GPURing .hour) :=
  calls.inits.map fun pre => (wrote cfg pre).gpuHour

theorem nodeHours_concat (calls : List Minute) (m : Minute) :
    nodeHours cfg (calls ++ [m]) =
      nodeHours cfg calls ++ [((wrote cfg calls).writeMinute m).nodeHour] := by
  simp [nodeHours, inits_append, wrote_concat]

theorem gpuHours_concat (calls : List Minute) (m : Minute) :
    gpuHours cfg (calls ++ [m]) =
      gpuHours cfg calls ++ [((wrote cfg calls).writeMinute m).gpuHour] := by
  simp [gpuHours, inits_append, wrote_concat]

end Store

/-- **The invariant**: the coarser tiers are sound, and the days of every lane. -/
structure DaySums (cfg : Config) (offset : Int) (calls : List Minute) : Prop where
  hour : (Store.wrote cfg calls).SoundAt .hour
  day : (Store.wrote cfg calls).SoundAt .day
  node : DayLane cfg NodeRecord.ts NodeRecord.Le aggregateNode offset
    (Store.nodeHours cfg calls) (Store.wrote cfg calls).nodeHour (Store.wrote cfg calls).nodeDay 0
  gpu : ∀ l, DayLane cfg GPURecord.ts GPURecord.Le aggregateGPU offset
    (Store.gpuHours cfg calls) (Store.wrote cfg calls).gpuHour (Store.wrote cfg calls).gpuDay l

section Run

variable {offset : Int} {calls : List Minute} {m : Minute}

/-- The lane of a new file has no days. -/
theorem dayLane_new {R : Type} [Inhabited R] {ts : R → Int} {le : R → R → Prop} [DecidableRel le]
    {agg : List R → Int → R} {lanes : Nat} (hzero : ts default = 0) (l : Fin lanes) :
    DayLane cfg ts le agg offset [Ring.new] Ring.new Ring.new l := by
  have hnone : ∀ x ∈ (Ring.new : Ring R (cfg.geometry .day) lanes).lane l, ts x = 0 := by
    intro x hx
    obtain ⟨i, -, rfl⟩ := Ring.mem_lane.1 hx
    exact hzero
  exact ⟨mem_singleton.2 rfl, fun x hx h => absurd (hnone x hx) h,
    fun x hx h => absurd (hnone x hx) h, fun x hx h => absurd (hnone x hx) h,
    fun x hx h => absurd (hnone x hx) h⟩

theorem daySums_new : DaySums cfg offset [] where
  hour := Store.sound_new .hour
  day := Store.sound_new .day
  node := dayLane_new rfl 0
  gpu := dayLane_new rfl

variable {t : Tier}

/-- What a range read finds of the node's hours. -/
theorem readNodeRange_eq_laneScan {r : cfg.NodeRing t} (h : Ring.Placed NodeRecord.ts r)
    {lo hi : Int} (hlo : 0 < lo) :
    readNodeRange r lo hi = r.laneScan NodeRecord.ts NodeRecord.Le 0 lo hi := by
  rw [← filter_true (readNodeRange r lo hi)]
  refine Ring.filter_readRange h hlo ?_ ?_
  · intro i k _
    simp [Subsingleton.elim k 0]
  · exact fun x y hxy hyx => Int.le_antisymm hxy hyx

/-- What a range read finds of a lane's hours. -/
theorem laneRecs_readGPURange {r : cfg.GPURing t} (h : Ring.Placed GPURecord.ts r)
    (hlaned : Laned r) (l : Fin cfg.gpuIDs.length) {lo hi : Int} (hlo : 0 < lo) :
    laneRecs cfg l (readGPURange r lo hi) =
      r.laneScan GPURecord.ts GPURecord.Le l lo hi := by
  refine Ring.filter_readRange h hlo ?_ ?_
  · intro i k hts
    rw [decide_eq_true_eq, hlaned i k hts, Option.some.injEq]
  · intro x y hxy hyx
    unfold GPURecord.Le at hxy hyx
    omega

section

variable (hloc : cfg.location = .fixed offset)
include hloc

theorem dayBucket_fixed (now : Int) :
    dayBucket cfg.location now = ((dayStart offset now).tdiv 86400, dayStart offset now,
      dayStart offset now + 86400) := by
  rw [hloc]
  simp only [dayBucket, Location.fixed, dayStart, Prod.mk.injEq, true_and]
  omega

variable {s : Store cfg}

/-- The days of the node after a minute: the hour of the minute was just written, so its day has
one. -/
theorem nodeDay_step (hoffset : 3600 ∣ offset) (hpos : 0 < dayStart offset m.node.ts)
    (h : (s.writeMinute m).SoundAt .hour) :
    RolledUp aggregateNode 0 ((dayStart offset m.node.ts).tdiv 86400) (dayStart offset m.node.ts)
      ((s.writeMinute m).nodeHour.laneScan NodeRecord.ts NodeRecord.Le 0
        (dayStart offset m.node.ts) (dayStart offset m.node.ts + 86400))
      s.nodeDay (s.writeMinute m).nodeDay := by
  intro i
  have hread : readNodeRange (s.writeMinute m).nodeHour (dayStart offset m.node.ts)
      (dayStart offset m.node.ts + 86400) = _ := readNodeRange_eq_laneScan h.node hpos
  have hmem : (s.writeMinute m).nodeHour.cells
      (slotOf (cfg.slots .hour) (hourBucket m.node.ts)) 0 ∈
      (s.writeMinute m).nodeHour.laneScan NodeRecord.ts NodeRecord.Le 0
        (dayStart offset m.node.ts) (dayStart offset m.node.ts + 86400) := by
    refine Ring.mem_laneScan.2 ⟨⟨_, slotOf_lt (cfg.slots_pos .hour) _, rfl⟩, ?_⟩
    rw [writeMinute_nodeHour, if_pos rfl, aggregateNode_ts]
    unfold dayStart hourStart
    omega
  have hne := ne_nil_of_mem hmem
  rw [writeMinute_nodeDay, dayBucket_fixed hloc]
  simp only [hread, hne, ne_eq, not_false_eq_true, and_true]
  rfl

/-- The days of a lane after a minute. -/
theorem gpuDay_step (hpos : 0 < dayStart offset m.node.ts) (h : (s.writeMinute m).SoundAt .hour)
    (l : Fin cfg.gpuIDs.length) :
    RolledUp aggregateGPU l ((dayStart offset m.node.ts).tdiv 86400) (dayStart offset m.node.ts)
      ((s.writeMinute m).gpuHour.laneScan GPURecord.ts GPURecord.Le l
        (dayStart offset m.node.ts) (dayStart offset m.node.ts + 86400))
      s.gpuDay (s.writeMinute m).gpuDay := by
  have hread : laneRecs cfg l (readGPURange (s.writeMinute m).gpuHour (dayStart offset m.node.ts)
      (dayStart offset m.node.ts + 86400)) = _ := laneRecs_readGPURange h.gpu h.laned l hpos
  have hday := writeMinute_gpuDay s m l
  simp only [dayBucket_fixed hloc, hread] at hday
  exact hday

/-- **Step lemma.** -/
theorem DaySums.writeMinute (h : DaySums cfg offset calls) (hoffset : 3600 ∣ offset)
    (hpos : 0 < dayStart offset m.node.ts) : DaySums cfg offset (calls ++ [m]) := by
  have hts : 0 ≤ m.node.ts := by
    unfold dayStart at hpos
    omega
  have hhour : ((Store.wrote cfg calls).writeMinute m).SoundAt .hour :=
    h.hour.writeMinute hts (by simp)
  refine ⟨?_, ?_, ?_, ?_⟩
  · rw [Store.wrote_concat]
    exact hhour
  · rw [Store.wrote_concat]
    exact h.day.writeMinute hts (by simp)
  · rw [Store.nodeHours_concat, Store.wrote_concat]
    refine h.node.step hoffset hpos h.hour.node h.day.node aggregateNode_ts ?_
      (nodeDay_step hloc hoffset hpos hhour)
    intro i
    rw [writeMinute_nodeHour]
    split
    · exact .inr (aggregateNode_ts _ _)
    · exact .inl rfl
  · intro l
    rw [Store.gpuHours_concat, Store.wrote_concat]
    refine (h.gpu l).step hoffset hpos h.hour.gpu h.day.gpu aggregateGPU_ts ?_
      (gpuDay_step hloc hpos hhour l)
    intro i
    rw [writeMinute_gpuHour _ m l i]
    split
    · exact .inr (aggregateGPU_ts _ _)
    · exact .inl rfl

/-- **Run lemma.** -/
theorem daySums_wrote (hoffset : 3600 ∣ offset)
    (h : ∀ m ∈ calls, 0 < cfg.location.midnight (cfg.location.day m.node.ts)) :
    DaySums cfg offset calls := by
  induction calls using List.reverseRecOn with
  | nil => exact daySums_new
  | append_singleton calls m ih =>
    rw [forall_mem_append, forall_mem_singleton] at h
    have hpos := h.2
    rw [hloc] at hpos
    exact (ih h.1).writeMinute hloc hoffset hpos

end

/-- **Each hour belongs to exactly one day**, in every run of minutes of days that start after the
epoch, in a zone at a fixed offset of whole hours: a day record whose hour records are all still
there is the aggregate of just these, and a local day is one for each of them. -/
theorem days_exact (hloc : cfg.location = .fixed offset) (hoffset : 3600 ∣ offset)
    (h : ∀ m ∈ calls, 0 < cfg.location.midnight (cfg.location.day m.node.ts)) :
    (∀ rec ∈ (Store.wrote cfg calls).nodeDay.lane 0, rec.ts ≠ 0 →
      Kept NodeRecord.ts (Store.nodeHours cfg calls) (Store.wrote cfg calls).nodeHour 0 rec.ts
        (rec.ts + 86400) →
      rec = aggregateNode ((Store.wrote cfg calls).nodeHour.laneScan NodeRecord.ts NodeRecord.Le 0
        rec.ts (rec.ts + 86400)) rec.ts) ∧
    (∀ l, ∀ rec ∈ (Store.wrote cfg calls).gpuDay.lane l, rec.ts ≠ 0 →
      Kept GPURecord.ts (Store.gpuHours cfg calls) (Store.wrote cfg calls).gpuHour l rec.ts
        (rec.ts + 86400) →
      rec = aggregateGPU ((Store.wrote cfg calls).gpuHour.laneScan GPURecord.ts GPURecord.Le l
        rec.ts (rec.ts + 86400)) rec.ts) ∧
    ∀ hour : Int, ∃! d, cfg.location.midnight d ≤ hour ∧ hour < cfg.location.midnight (d + 1) := by
  have hsums := daySums_wrote hloc hoffset h
  refine ⟨hsums.node.exact, fun l => (hsums.gpu l).exact, ?_⟩
  intro hour
  rw [hloc]
  refine ⟨(hour + offset) / 86400, ?_, ?_⟩
  · simp only [Location.fixed]
    omega
  · intro d hd
    simp only [Location.fixed] at hd
    omega

end Run

/-! ### An hour that straddles midnight -/

/-- A node with one GPU in a zone at a fixed offset. -/
def zoned (offset : Int) : Config where
  gpuIDs := [0]
  slots := fun _ => 48
  location := .fixed offset
  gpuIDs_ne := oneID_ne
  slots_pos := fun _ => by decide

/-- Two minutes of one hour, half an hour apart. -/
def halfHours : List Minute := [⟨⟨151200, 100, 60⟩, []⟩, ⟨⟨153000, 100, 60⟩, []⟩]

/-- Two hours east of UTC both are of one day. -/
theorem days_exact_whole_hours :
    (⟨79200, 100, 120⟩ : NodeRecord) =
      aggregateNode ((Store.wrote (zoned 7200) halfHours).nodeHour.laneScan NodeRecord.ts
        NodeRecord.Le 0 79200 165600) 79200 :=
  (days_exact (show (zoned 7200).location = .fixed 7200 from rfl) (by decide)
    (show ∀ m ∈ halfHours, _ by decide)).1 ⟨79200, 100, 120⟩ (by decide +kernel) (by decide)
    (by decide +kernel)

/-- Five and a half hours east of UTC local midnight is at half past: the second minute goes to an
hour of the day before, whose record is not computed anew. -/
theorem days_exact_half_past :
    (⟨66600, 100, 60⟩ : NodeRecord) ∈ (Store.wrote (zoned 19800) halfHours).nodeDay.lane 0 ∧
      Kept NodeRecord.ts (Store.nodeHours (zoned 19800) halfHours)
        (Store.wrote (zoned 19800) halfHours).nodeHour 0 66600 153000 ∧
      aggregateNode ((Store.wrote (zoned 19800) halfHours).nodeHour.laneScan NodeRecord.ts
        NodeRecord.Le 0 66600 153000) 66600 = ⟨66600, 100, 120⟩ := by
  decide +kernel

end Viiwork.Energy
