import Viiwork.Energy.Store

/-!
# Viiwork.Energy.Reads

Range reads of the energy store against scans of every slot.

Every record of a ring stands in the slot of its own time stamp, and every GPU record in the lane of
its own GPU (`Store.SoundAt`). A minute keeps this if its GPU records are of the minute they are
written with: the slot is the node record's. `readNode` and `readGPU` then give what a scan gives.
-/

namespace Viiwork.Energy

open Viiwork.Lib List

variable {cfg : Config} {t : Tier}

/-! ### Sound rings -/

/-- Every GPU record is in the lane of its GPU. -/
def Laned (r : cfg.GPURing t) : Prop :=
  ∀ i l, (r.cells i l).ts ≠ 0 → cfg.gpuLane (r.cells i l).gpuID = some l

/-- What holds of the rings of a tier. -/
structure Store.SoundAt (s : Store cfg) (t : Tier) : Prop where
  node : Ring.Placed NodeRecord.ts (s.nodeRing t)
  gpu : Ring.Placed GPURecord.ts (s.gpuRing t)
  laned : Laned (s.gpuRing t)

/-- What holds of the rings of a store. -/
def Store.Sound (s : Store cfg) : Prop := ∀ t, s.SoundAt t

variable {bucket startTS : Int} {r : cfg.GPURing t} {recs : List (Nat × GPURecord)}

theorem placed_putLanes (h : Ring.Placed GPURecord.ts r)
    (hrecs : ∀ rec ∈ recs, rec.2.ts ≠ 0 → rec.2.ts.tdiv t.period = bucket) :
    Ring.Placed GPURecord.ts (putLanes r bucket recs) := by
  intro i hi l
  rw [putLanes_cells]
  split
  · rename_i hslot
    cases hlast : lastFor cfg l recs with
    | none => exact h i hi l
    | some g =>
      intro hne
      obtain ⟨id, hmem, -⟩ := lastFor_mem hlast
      simp only [Option.getD_some, Config.geometry_slots, Config.geometry_period]
      rw [hrecs (id, g) hmem hne, hslot]
  · exact h i hi l

theorem laned_putLanes (h : Laned r) (hrecs : ∀ rec ∈ recs, rec.2.gpuID = rec.1) :
    Laned (putLanes r bucket recs) := by
  intro i l
  rw [putLanes_cells]
  split
  · cases hlast : lastFor cfg l recs with
    | none => exact h i l
    | some g =>
      intro _
      obtain ⟨id, hmem, hlane⟩ := lastFor_mem hlast
      rw [Option.getD_some, hrecs (id, g) hmem, hlane]
  · exact h i l

/-- A group's aggregate is a record of its GPU with the coarse time stamp. -/
theorem mem_byGPU_aggregate {gpus : List GPURecord} {rec : Nat × GPURecord}
    (h : rec ∈ (byGPU gpus).map fun group => (group.1, aggregateGPU group.2 startTS)) :
    rec.2.gpuID = rec.1 ∧ rec.2.ts = startTS := by
  obtain ⟨group, hgroup, rfl⟩ := mem_map.1 h
  obtain ⟨id, hid, rfl⟩ := mem_map.1 hgroup
  obtain ⟨g, hg, hgid⟩ := mem_map.1 (mem_dedup.1 hid)
  refine ⟨aggregateGPU_gpuID ?_ ?_ startTS, aggregateGPU_ts _ startTS⟩
  · exact ne_nil_of_mem (mem_filter.2 ⟨hg, by simpa using hgid⟩)
  · intro r hr
    simpa using (mem_filter.1 hr).2

/-- **A roll-up keeps the rings sound** if its bucket is that of its start. -/
theorem rollUpInto_sound {nodeRing : cfg.NodeRing t} {gpuRing : cfg.GPURing t}
    (hnode : Ring.Placed NodeRecord.ts nodeRing) (hgpu : Ring.Placed GPURecord.ts gpuRing)
    (hlaned : Laned gpuRing) (hbucket : startTS.tdiv t.period = bucket) (nodes : List NodeRecord)
    (gpus : List GPURecord) :
    Ring.Placed NodeRecord.ts (rollUpInto nodeRing gpuRing bucket startTS nodes gpus).1 ∧
      Ring.Placed GPURecord.ts (rollUpInto nodeRing gpuRing bucket startTS nodes gpus).2 ∧
      Laned (rollUpInto nodeRing gpuRing bucket startTS nodes gpus).2 := by
  refine ⟨hnode.put fun _ => hbucket, placed_putLanes hgpu ?_, laned_putLanes hlaned ?_⟩
  · intro rec hrec _
    rw [(mem_byGPU_aggregate hrec).2, hbucket]
  · intro rec hrec
    exact (mem_byGPU_aggregate hrec).1

/-! ### Sound stores -/

theorem hourStart_tdiv {ts : Int} (h : 0 ≤ ts) : (hourStart ts).tdiv 3600 = hourBucket ts := by
  have hstart : 0 ≤ hourStart ts := by
    unfold hourStart
    omega
  rw [hourBucket, Int.tdiv_eq_ediv_of_nonneg hstart, Int.tdiv_eq_ediv_of_nonneg h, hourStart]
  omega

namespace Store

/-- A call whose GPU records are of the minute it is made for. -/
def SameMinute (m : Minute) : Prop :=
  0 ≤ m.node.ts ∧ ∀ g ∈ m.gpus, minuteBucket g.ts = minuteBucket m.node.ts

theorem sound_new : (new cfg).Sound := by
  intro t
  cases t <;> exact ⟨fun _ _ _ h => absurd rfl h, fun _ _ _ h => absurd rfl h,
    fun _ _ h => absurd rfl h⟩

variable {s : Store cfg} {m : Minute}

theorem SoundAt.putMinute (h : s.SoundAt t) (hm : t = .minute → SameMinute m) :
    (s.putMinute m).SoundAt t := by
  cases t with
  | minute =>
    refine ⟨h.node.put fun _ => rfl, placed_putLanes h.gpu ?_, laned_putLanes h.laned ?_⟩
    · intro rec hrec _
      obtain ⟨g, hg, rfl⟩ := mem_map.1 hrec
      exact (hm rfl).2 g hg
    · intro rec hrec
      obtain ⟨g, -, rfl⟩ := mem_map.1 hrec
      rfl
  | hour | day => exact ⟨h.node, h.gpu, h.laned⟩

theorem SoundAt.rollUpHour (h : s.SoundAt t) {ts : Int} (hts : 0 ≤ ts) :
    (s.rollUpHour ts).SoundAt t := by
  cases t with
  | minute | day => exact ⟨h.node, h.gpu, h.laned⟩
  | hour =>
    have hrings := rollUpInto_sound h.node h.gpu h.laned (hourStart_tdiv hts)
      (readNodeRange s.nodeMinute (hourStart ts) (hourStart ts + 3600))
      (readGPURange s.gpuMinute (hourStart ts) (hourStart ts + 3600))
    exact ⟨hrings.1, hrings.2.1, hrings.2.2⟩

theorem SoundAt.rollUpDay (h : s.SoundAt t) (ts : Int) : (s.rollUpDay ts).SoundAt t := by
  cases t with
  | minute | hour => exact ⟨h.node, h.gpu, h.laned⟩
  | day =>
    have hrings := rollUpInto_sound h.node h.gpu h.laned
      (show (dayBucket cfg.location ts).2.1.tdiv 86400 = (dayBucket cfg.location ts).1 from rfl)
      (readNodeRange s.nodeHour (dayBucket cfg.location ts).2.1 (dayBucket cfg.location ts).2.2)
      (readGPURange s.gpuHour (dayBucket cfg.location ts).2.1 (dayBucket cfg.location ts).2.2)
    exact ⟨hrings.1, hrings.2.1, hrings.2.2⟩

/-- **Step lemma.** The coarser tiers stay sound whatever the minute's GPU records are. -/
theorem SoundAt.writeMinute (h : s.SoundAt t) (hts : 0 ≤ m.node.ts)
    (hm : t = .minute → SameMinute m) : (s.writeMinute m).SoundAt t :=
  ((h.putMinute hm).rollUpHour hts).rollUpDay m.node.ts

/-- **Run lemma.** -/
theorem sound_run {calls : List Minute} (h : ∀ m ∈ calls, SameMinute m) (hs : s.Sound) :
    (calls.foldl Store.writeMinute s).Sound := by
  induction calls generalizing s with
  | nil => exact hs
  | cons m calls ih =>
    rw [forall_mem_cons] at h
    exact ih h.2 fun t => (hs t).writeMinute h.1.1 fun _ => h.1

/-! ### Reads -/

/-- The node records of a range by a scan of every slot. -/
def scanNode (s : Store cfg) (t : Tier) (lo hi : Int) : List NodeRecord :=
  (s.nodeRing t).scan NodeRecord.ts NodeRecord.Le lo hi

/-- The GPU records of a range by a scan of every slot. -/
def scanGPU (s : Store cfg) (t : Tier) (lo hi : Int) : List GPURecord :=
  (s.gpuRing t).scan GPURecord.ts GPURecord.Le lo hi

theorem SoundAt.readNode_eq (h : s.SoundAt t) {lo hi : Int} (hlo : 0 < lo) :
    s.readNode t lo hi = s.scanNode t lo hi := by
  refine Ring.readRange_eq_scan (h.node) hlo ?_
  intro x hx y hy hxts hyts hxy hyx
  obtain ⟨i, hi, l, rfl⟩ := Ring.mem_all.1 hx
  obtain ⟨j, hj, k, rfl⟩ := Ring.mem_all.1 hy
  have hts := Int.le_antisymm hxy hyx
  have hslot : i = j := by
    rw [← h.node i hi l hxts, ← h.node j hj k hyts, hts]
  rw [hslot, Subsingleton.elim l k]

theorem SoundAt.readGPU_eq (h : s.SoundAt t) {lo hi : Int} (hlo : 0 < lo) :
    s.readGPU t lo hi = s.scanGPU t lo hi := by
  refine Ring.readRange_eq_scan (h.gpu) hlo ?_
  intro x hx y hy hxts hyts hxy hyx
  obtain ⟨i, hi, l, rfl⟩ := Ring.mem_all.1 hx
  obtain ⟨j, hj, k, rfl⟩ := Ring.mem_all.1 hy
  unfold GPURecord.Le at hxy hyx
  have hts : ((s.gpuRing t).cells i l).ts = ((s.gpuRing t).cells j k).ts := by omega
  have hid : ((s.gpuRing t).cells i l).gpuID = ((s.gpuRing t).cells j k).gpuID := by omega
  have hslot : i = j := by
    rw [← h.gpu i hi l hxts, ← h.gpu j hj k hyts, hts]
  have hlane : l = k := by
    have hl := h.laned i l hxts
    rw [hid, h.laned j k hyts] at hl
    exact (Option.some.inj hl).symm
  rw [hslot, hlane]

/-- **Reads are exact.** After any minutes, each with GPU records of its own minute, a range read of
any tier gives what a scan of every slot gives. -/
theorem reads_exact {calls : List Minute} (hcalls : ∀ m ∈ calls, SameMinute m) (t : Tier)
    {lo hi : Int} (hlo : 0 < lo) :
    (calls.foldl Store.writeMinute (new cfg)).readNode t lo hi =
        (calls.foldl Store.writeMinute (new cfg)).scanNode t lo hi ∧
      (calls.foldl Store.writeMinute (new cfg)).readGPU t lo hi =
        (calls.foldl Store.writeMinute (new cfg)).scanGPU t lo hi := by
  have hsound := sound_run hcalls (@sound_new cfg)
  exact ⟨(hsound t).readNode_eq hlo, (hsound t).readGPU_eq hlo⟩

/-- A node with one GPU, in UTC. -/
def oneGPU : Config where
  gpuIDs := [0]
  slots := fun _ => 20
  location := .fixed 0
  gpuIDs_ne := oneID_ne
  slots_pos := fun _ => by decide

/-- Twenty-one minutes apart, the second record takes the slot after the first. -/
theorem reads_exact_lap :
    let s := [(⟨⟨60, 100, 60⟩, [⟨60, 0, 1, 40, 50, 60⟩]⟩ : Minute),
      ⟨⟨1320, 200, 60⟩, [⟨1320, 0, 1, 80, 90, 60⟩]⟩].foldl Store.writeMinute (new oneGPU)
    s.readNode .minute 60 1380 = s.scanNode .minute 60 1380 ∧
      s.readGPU .minute 60 1380 = s.scanGPU .minute 60 1380 :=
  reads_exact (by simp [SameMinute]) .minute (by decide)

/-- A GPU record of another minute stands in the node record's slot, where a read of its own minute
does not look. -/
theorem readGPU_other_minute :
    let s := (new oneGPU).writeMinute ⟨⟨60, 100, 60⟩, [⟨600, 0, 1, 40, 50, 60⟩]⟩
    s.readGPU .minute 600 660 = [] ∧
      s.scanGPU .minute 600 660 = [⟨600, 0, 1, 40, 50, 60⟩] := by
  decide +kernel

end Store

end Viiwork.Energy
