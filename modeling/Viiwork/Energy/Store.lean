import Viiwork.Energy.Ring

/-!
# Viiwork.Energy.Store

The energy store (`energy/store.go`, `energy/record.go`): for the node and for its GPUs a ring of
minutes, a ring of hours and a ring of days. `writeMinute` records a finalised minute and computes
the hour and the day it belongs to anew from the finer tier.

Watts are exact rationals. Time stamps are unix seconds; a record with time stamp zero was never
written. A location is what `dayBucket` takes from it: the civil day of an instant, as a day number,
and the instant a day starts at.
-/

namespace Viiwork.Energy

open Viiwork.Lib List

/-! ### Records -/

/-- One time bucket of whole-node power. -/
structure NodeRecord where
  ts : Int
  watts : ℚ
  coveredS : Nat
  deriving DecidableEq, Inhabited

/-- One time bucket of one GPU. -/
structure GPURecord where
  ts : Int
  gpuID : Nat
  modelIdx : Nat
  attrW : ℚ
  rawW : ℚ
  coveredS : Nat
  deriving DecidableEq, Inhabited

/-- Node records are read oldest first. -/
def NodeRecord.Le (a b : NodeRecord) : Prop := a.ts ≤ b.ts

/-- GPU records are read oldest first, those of one time by GPU. -/
def GPURecord.Le (a b : GPURecord) : Prop := a.ts < b.ts ∨ a.ts = b.ts ∧ a.gpuID ≤ b.gpuID

instance : DecidableRel NodeRecord.Le := fun a b => inferInstanceAs (Decidable (a.ts ≤ b.ts))

instance : DecidableRel GPURecord.Le := fun a b =>
  inferInstanceAs (Decidable (a.ts < b.ts ∨ a.ts = b.ts ∧ a.gpuID ≤ b.gpuID))

instance : Std.Total NodeRecord.Le := ⟨fun a b => Int.le_total a.ts b.ts⟩

instance : IsTrans NodeRecord NodeRecord.Le := ⟨fun _ _ _ hab hbc => Int.le_trans hab hbc⟩

instance : Std.Total GPURecord.Le := ⟨fun a b => by unfold GPURecord.Le; omega⟩

instance : IsTrans GPURecord GPURecord.Le := ⟨fun a b c => by unfold GPURecord.Le; omega⟩

/-! ### Configuration -/

inductive Tier where
  | minute
  | hour
  | day
  deriving DecidableEq

/-- The bucket length of a tier in seconds. -/
def Tier.period : Tier → Int
  | .minute => 60
  | .hour => 3600
  | .day => 86400

/-- The civil day of an instant, and the instant of local midnight that starts a civil day. -/
structure Location where
  day : Int → Int
  midnight : Int → Int

/-- A zone at a fixed offset from UTC, in seconds to the east. -/
def Location.fixed (offset : Int) : Location where
  day ts := (ts + offset) / 86400
  midnight d := 86400 * d - offset

/-- A configuration as `Open` completes it: a GPU at least, and slots in every tier. -/
structure Config where
  gpuIDs : List Int
  slots : Tier → Nat
  location : Location
  gpuIDs_ne : gpuIDs ≠ []
  slots_pos : ∀ t, 0 < slots t

theorem oneID_ne : ([0] : List Int) ≠ [] := by decide

namespace Config

variable (cfg : Config)

/-- The rings of a tier. -/
def geometry (t : Tier) : Geometry where
  slots := cfg.slots t
  period := t.period
  slots_pos := cfg.slots_pos t

@[simp] theorem geometry_slots (t : Tier) : (cfg.geometry t).slots = cfg.slots t := rfl

@[simp] theorem geometry_period (t : Tier) : (cfg.geometry t).period = t.period := rfl

/-- The node's ring of a tier. -/
abbrev NodeRing (t : Tier) : Type := Ring NodeRecord (cfg.geometry t) 1

/-- The GPUs' ring of a tier. -/
abbrev GPURing (t : Tier) : Type := Ring GPURecord (cfg.geometry t) cfg.gpuIDs.length

/-- `gpuLane`: the lane of a GPU. `Open` enters the ids in order, so the last lane of an id that is
configured twice stays. -/
def gpuLane (id : Nat) : Option (Fin cfg.gpuIDs.length) :=
  (List.finRange cfg.gpuIDs.length).foldl
    (fun lane l => if cfg.gpuIDs.get l = id then some l else lane) none

variable {cfg} {l : Fin cfg.gpuIDs.length}

theorem get_of_gpuLane {id : Nat} (h : cfg.gpuLane id = some l) : cfg.gpuIDs.get l = id := by
  have hfold : ∀ (ls : List (Fin cfg.gpuIDs.length)) (init : Option (Fin cfg.gpuIDs.length)),
      (∀ l, init = some l → cfg.gpuIDs.get l = id) →
      ∀ l, ls.foldl (fun lane l => if cfg.gpuIDs.get l = id then some l else lane) init = some l →
        cfg.gpuIDs.get l = id := by
    intro ls
    induction ls with
    | nil => exact fun _ hinit => hinit
    | cons k ls ih =>
      intro init hinit
      refine ih _ ?_
      intro l hl
      by_cases hk : cfg.gpuIDs.get k = id
      · simp only [hk, if_true] at hl
        cases hl
        exact hk
      · simp only [hk, if_false] at hl
        exact hinit l hl
  exact hfold _ none (by simp) l h

/-- A lane is one GPU's. -/
theorem gpuLane_inj {id id' : Nat} (h : cfg.gpuLane id = some l) (h' : cfg.gpuLane id' = some l) :
    id = id' := by
  have heq := (get_of_gpuLane h).symm.trans (get_of_gpuLane h')
  exact_mod_cast heq

end Config

/-! ### Aggregates -/

/-- `clampCovered`: a day of covered seconds does not fit the field. -/
def clampCovered (covered : Nat) : Nat := min covered 65535

/-- `aggregateNode`: the mean is weighted by covered seconds. -/
def aggregateNode (recs : List NodeRecord) (startTS : Int) : NodeRecord :=
  let wattSeconds := (recs.map fun r => r.watts * (r.coveredS : ℚ)).sum
  let covered : Nat := (recs.map (·.coveredS)).sum
  { ts := startTS
    watts := if 0 < covered then wattSeconds / covered else 0
    coveredS := clampCovered covered }

/-- The covered seconds of a model. -/
def modelTime (recs : List GPURecord) (idx : Nat) : Nat :=
  ((recs.filter (·.modelIdx = idx)).map (·.coveredS)).sum

/-- The model that held the GPU for the most covered time, the lower index first. The loop is over
a map; the answer does not depend on its order. -/
def bestModel (recs : List GPURecord) : Nat :=
  ((recs.map (·.modelIdx)).dedup.foldl
    (fun (out : Nat × Int) idx =>
      if out.2 < modelTime recs idx ∨ (modelTime recs idx : Int) = out.2 ∧ idx < out.1 then
        (idx, (modelTime recs idx : Int))
      else out) (0, -1)).1

/-- `aggregateGPU`: the means are weighted by covered seconds. -/
def aggregateGPU (recs : List GPURecord) (startTS : Int) : GPURecord :=
  match recs with
  | [] => { (default : GPURecord) with ts := startTS }
  | first :: _ =>
    let attrSeconds := (recs.map fun r => r.attrW * (r.coveredS : ℚ)).sum
    let rawSeconds := (recs.map fun r => r.rawW * (r.coveredS : ℚ)).sum
    let covered : Nat := (recs.map (·.coveredS)).sum
    { ts := startTS
      gpuID := first.gpuID
      modelIdx := bestModel recs
      attrW := if 0 < covered then attrSeconds / covered else 0
      rawW := if 0 < covered then rawSeconds / covered else 0
      coveredS := clampCovered covered }

@[simp] theorem aggregateNode_ts (recs : List NodeRecord) (startTS : Int) :
    (aggregateNode recs startTS).ts = startTS := rfl

@[simp] theorem aggregateGPU_ts (recs : List GPURecord) (startTS : Int) :
    (aggregateGPU recs startTS).ts = startTS := by
  cases recs <;> rfl

/-- The aggregate of one GPU's records is that GPU's. -/
theorem aggregateGPU_gpuID {recs : List GPURecord} (hne : recs ≠ []) {id : Nat}
    (hid : ∀ r ∈ recs, r.gpuID = id) (startTS : Int) :
    (aggregateGPU recs startTS).gpuID = id := by
  cases recs with
  | nil => exact absurd rfl hne
  | cons first rest => exact hid first mem_cons_self

/-! ### The store -/

/-- The six ring files. -/
structure Store (cfg : Config) where
  nodeMinute : cfg.NodeRing .minute
  nodeHour : cfg.NodeRing .hour
  nodeDay : cfg.NodeRing .day
  gpuMinute : cfg.GPURing .minute
  gpuHour : cfg.GPURing .hour
  gpuDay : cfg.GPURing .day

variable {cfg : Config} {t : Tier}

/-- Put each record in the lane of its GPU; a GPU that is not configured has none. -/
def putLanes (r : cfg.GPURing t) (bucket : Int) (recs : List (Nat × GPURecord)) :
    cfg.GPURing t :=
  recs.foldl
    (fun r rec =>
      match cfg.gpuLane rec.1 with
      | some lane => r.put bucket lane rec.2
      | none => r) r

/-- The records by GPU. -/
def byGPU (gpus : List GPURecord) : List (Nat × List GPURecord) :=
  (gpus.map (·.gpuID)).dedup.map fun id => (id, gpus.filter (·.gpuID = id))

/-- `rollUpInto`: the aggregates of the finer records into a bucket of the coarser rings. -/
def rollUpInto (nodeRing : cfg.NodeRing t) (gpuRing : cfg.GPURing t) (bucket startTS : Int)
    (nodes : List NodeRecord) (gpus : List GPURecord) : cfg.NodeRing t × cfg.GPURing t :=
  (nodeRing.put bucket 0 (aggregateNode nodes startTS),
    putLanes gpuRing bucket
      ((byGPU gpus).map fun group => (group.1, aggregateGPU group.2 startTS)))

def readNodeRange (r : cfg.NodeRing t) (lo hi : Int) : List NodeRecord :=
  r.readRange NodeRecord.ts NodeRecord.Le lo hi

def readGPURange (r : cfg.GPURing t) (lo hi : Int) : List GPURecord :=
  r.readRange GPURecord.ts GPURecord.Le lo hi

def minuteBucket (ts : Int) : Int := ts.tdiv 60

def hourBucket (ts : Int) : Int := ts.tdiv 3600

/-- `ts.Truncate(time.Hour)`. -/
def hourStart (ts : Int) : Int := ts - ts % 3600

/-- `dayBucket`: the bucket, the start and the end of the local day. -/
def dayBucket (loc : Location) (ts : Int) : Int × Int × Int :=
  let start := loc.midnight (loc.day ts)
  (start.tdiv 86400, start, loc.midnight (loc.day ts + 1))

/-- A finalised minute. -/
structure Minute where
  node : NodeRecord
  gpus : List GPURecord

namespace Store

/-- The store of new files. -/
def new (cfg : Config) : Store cfg :=
  ⟨Ring.new, Ring.new, Ring.new, Ring.new, Ring.new, Ring.new⟩

/-- `Open` with the configuration the files were written with. -/
def reopen (s : Store cfg) : Store cfg :=
  ⟨Ring.openRing (some ⟨_, _, s.nodeMinute⟩), Ring.openRing (some ⟨_, _, s.nodeHour⟩),
    Ring.openRing (some ⟨_, _, s.nodeDay⟩), Ring.openRing (some ⟨_, _, s.gpuMinute⟩),
    Ring.openRing (some ⟨_, _, s.gpuHour⟩), Ring.openRing (some ⟨_, _, s.gpuDay⟩)⟩

theorem reopen_eq (s : Store cfg) : s.reopen = s := by
  simp only [reopen, Ring.openRing_self]

/-- The minute's own records. -/
def putMinute (s : Store cfg) (m : Minute) : Store cfg :=
  { s with
    nodeMinute := s.nodeMinute.put (minuteBucket m.node.ts) 0 m.node
    gpuMinute := putLanes s.gpuMinute (minuteBucket m.node.ts) (m.gpus.map fun g => (g.gpuID, g)) }

/-- The hour of an instant, from the minutes. -/
def rollUpHour (s : Store cfg) (ts : Int) : Store cfg :=
  let rings := rollUpInto s.nodeHour s.gpuHour (hourBucket ts) (hourStart ts)
    (readNodeRange s.nodeMinute (hourStart ts) (hourStart ts + 3600))
    (readGPURange s.gpuMinute (hourStart ts) (hourStart ts + 3600))
  { s with nodeHour := rings.1, gpuHour := rings.2 }

/-- The day of an instant, from the hours. -/
def rollUpDay (s : Store cfg) (ts : Int) : Store cfg :=
  match dayBucket cfg.location ts with
  | (bucket, start, stop) =>
    let rings := rollUpInto s.nodeDay s.gpuDay bucket start
      (readNodeRange s.nodeHour start stop) (readGPURange s.gpuHour start stop)
    { s with nodeDay := rings.1, gpuDay := rings.2 }

/-- `rollUp`. -/
def rollUp (s : Store cfg) (ts : Int) : Store cfg := (s.rollUpHour ts).rollUpDay ts

/-- `WriteMinute`. -/
def writeMinute (s : Store cfg) (m : Minute) : Store cfg := (s.putMinute m).rollUp m.node.ts

/-- `ringFor` of the node. -/
def nodeRing (s : Store cfg) : (t : Tier) → cfg.NodeRing t
  | .minute => s.nodeMinute
  | .hour => s.nodeHour
  | .day => s.nodeDay

/-- `ringFor` of the GPUs. -/
def gpuRing (s : Store cfg) : (t : Tier) → cfg.GPURing t
  | .minute => s.gpuMinute
  | .hour => s.gpuHour
  | .day => s.gpuDay

/-- `ReadNode`. -/
def readNode (s : Store cfg) (t : Tier) (lo hi : Int) : List NodeRecord :=
  readNodeRange (s.nodeRing t) lo hi

/-- `ReadGPU`. -/
def readGPU (s : Store cfg) (t : Tier) (lo hi : Int) : List GPURecord :=
  readGPURange (s.gpuRing t) lo hi

end Store

/-! ### What a put of lanes leaves -/

/-- The records of a lane. -/
def laneRecs (cfg : Config) (l : Fin cfg.gpuIDs.length) (gpus : List GPURecord) :
    List GPURecord :=
  gpus.filter fun g => cfg.gpuLane g.gpuID = some l

/-- The last record that goes to a lane. -/
def lastFor (cfg : Config) (l : Fin cfg.gpuIDs.length) (recs : List (Nat × GPURecord)) :
    Option GPURecord :=
  (lastWith (fun rec => cfg.gpuLane rec.1) (some l) recs).map Prod.snd

theorem lastFor_concat (l : Fin cfg.gpuIDs.length) (recs : List (Nat × GPURecord))
    (rec : Nat × GPURecord) :
    lastFor cfg l (recs ++ [rec]) =
      if cfg.gpuLane rec.1 = some l then some rec.2 else lastFor cfg l recs := by
  rw [lastFor, lastWith_append, lastFor]
  by_cases h : cfg.gpuLane rec.1 = some l
  · simp [lastWith, h]
  · simp [lastWith, h]

theorem lastFor_mem {l : Fin cfg.gpuIDs.length} {recs : List (Nat × GPURecord)} {g : GPURecord}
    (h : lastFor cfg l recs = some g) : ∃ id, (id, g) ∈ recs ∧ cfg.gpuLane id = some l := by
  obtain ⟨rec, hlast, rfl⟩ := Option.map_eq_some_iff.1 h
  exact ⟨rec.1, mem_of_lastWith hlast⟩

/-- **What a put of lanes leaves**: in the bucket's slot each lane holds its last record. -/
theorem putLanes_cells (r : cfg.GPURing t) (bucket : Int) (recs : List (Nat × GPURecord)) (i : Nat)
    (l : Fin cfg.gpuIDs.length) :
    (putLanes r bucket recs).cells i l =
      if i = slotOf (cfg.slots t) bucket then (lastFor cfg l recs).getD (r.cells i l)
      else r.cells i l := by
  -- from the end: the last record decides its lane
  induction recs using List.reverseRecOn with
  | nil => simp [putLanes, lastFor, lastWith]
  | append_singleton recs rec ih =>
    rw [lastFor_concat, putLanes, foldl_append]
    simp only [foldl_cons, foldl_nil]
    change ((match cfg.gpuLane rec.1 with
      | some lane => (putLanes r bucket recs).put bucket lane rec.2
      | none => putLanes r bucket recs).cells i l) = _
    cases hlane : cfg.gpuLane rec.1 with
    | none => simpa using ih
    | some lane =>
      simp only [Ring.put_cells, ih, Option.some.injEq, Config.geometry_slots]
      by_cases hi : i = slotOf (cfg.slots t) bucket
      · by_cases hl : l = lane
        · simp [hi, hl]
        · simp [hi, hl, Ne.symm hl]
      · simp [hi]

/-- A group goes to a lane exactly when the lane has records. -/
theorem lastFor_byGPU (gpus : List GPURecord) (startTS : Int) (l : Fin cfg.gpuIDs.length) :
    lastFor cfg l ((byGPU gpus).map fun group => (group.1, aggregateGPU group.2 startTS)) =
      if laneRecs cfg l gpus = [] then none
      else some (aggregateGPU (laneRecs cfg l gpus) startTS) := by
  rw [lastFor, byGPU, map_map, lastWith_map]
  split
  · rename_i hnone
    rw [lastWith_eq_none_iff.2]
    · rfl
    · intro id hid hlane
      obtain ⟨g, hg, rfl⟩ := mem_map.1 (mem_dedup.1 hid)
      exact filter_eq_nil_iff.1 hnone g hg (by simpa using hlane)
  · rename_i hsome
    obtain ⟨g, hg⟩ := exists_mem_of_ne_nil _ hsome
    rw [laneRecs, mem_filter, decide_eq_true_eq] at hg
    -- one id has the lane, so the lane's records are that group
    have hiff : ∀ id, cfg.gpuLane id = some l ↔ id = g.gpuID := by
      intro id
      exact ⟨fun h => Config.gpuLane_inj h hg.2, fun h => h ▸ hg.2⟩
    have hgroup : laneRecs cfg l gpus = gpus.filter (·.gpuID = g.gpuID) := by
      unfold laneRecs
      simp only [hiff]
    have hlast : lastWith (fun id => cfg.gpuLane id) (some l) (gpus.map (·.gpuID)).dedup =
        some g.gpuID := by
      cases h : lastWith (fun id => cfg.gpuLane id) (some l) (gpus.map (·.gpuID)).dedup with
      | none =>
        have hmem : g.gpuID ∈ (gpus.map (·.gpuID)).dedup :=
          mem_dedup.2 (mem_map.2 ⟨g, hg.1, rfl⟩)
        exact absurd hg.2 (lastWith_eq_none_iff.1 h _ hmem)
      | some id => rw [(hiff id).1 (mem_of_lastWith h).2]
    rw [hgroup]
    show Option.map Prod.snd (Option.map _ (lastWith (fun id => cfg.gpuLane id) _ _)) = _
    rw [hlast]
    rfl

/-- What a roll-up leaves in the node's ring. -/
theorem rollUpInto_node (nodeRing : cfg.NodeRing t) (gpuRing : cfg.GPURing t)
    (bucket startTS : Int) (nodes : List NodeRecord) (gpus : List GPURecord) (i : Nat) :
    (rollUpInto nodeRing gpuRing bucket startTS nodes gpus).1.cells i 0 =
      if i = slotOf (cfg.slots t) bucket then aggregateNode nodes startTS
      else nodeRing.cells i 0 := by
  refine (Ring.put_cells _ _ _ _ i 0).trans ?_
  simp only [Config.geometry_slots, and_true]

/-- A roll-up of records into a bucket of a lane. A lane without records keeps what it held. -/
def RolledUp {R : Type} {lanes : Nat} (agg : List R → Int → R) (l : Fin lanes)
    (bucket startTS : Int) (recs : List R) (r r' : Ring R (cfg.geometry t) lanes) : Prop :=
  ∀ i, r'.cells i l =
    if i = slotOf (cfg.slots t) bucket ∧ recs ≠ [] then agg recs startTS else r.cells i l

/-- What a roll-up leaves in a lane. -/
theorem rollUpInto_gpu (nodeRing : cfg.NodeRing t) (gpuRing : cfg.GPURing t)
    (bucket startTS : Int) (nodes : List NodeRecord) (gpus : List GPURecord)
    (l : Fin cfg.gpuIDs.length) : RolledUp aggregateGPU l bucket startTS (laneRecs cfg l gpus)
      gpuRing (rollUpInto nodeRing gpuRing bucket startTS nodes gpus).2 := by
  intro i
  refine (putLanes_cells _ _ _ i l).trans ?_
  rw [lastFor_byGPU]
  by_cases hi : i = slotOf (cfg.slots t) bucket
  · by_cases hnil : laneRecs cfg l gpus = []
    · simp [hnil]
    · simp [hi, hnil]
  · simp [hi]

/-- The minutes of the node that the roll-up of a minute's hour reads. -/
def Store.hourNodes (s : Store cfg) (m : Minute) : List NodeRecord :=
  readNodeRange (s.putMinute m).nodeMinute (hourStart m.node.ts) (hourStart m.node.ts + 3600)

/-- The minutes of a lane that the roll-up of a minute's hour reads. -/
def Store.hourLane (s : Store cfg) (m : Minute) (l : Fin cfg.gpuIDs.length) : List GPURecord :=
  laneRecs cfg l
    (readGPURange (s.putMinute m).gpuMinute (hourStart m.node.ts) (hourStart m.node.ts + 3600))

/-- The hours of the node after a minute. -/
theorem writeMinute_nodeHour (s : Store cfg) (m : Minute) (i : Nat) :
    (s.writeMinute m).nodeHour.cells i 0 =
      if i = slotOf (cfg.slots .hour) (hourBucket m.node.ts) then
        aggregateNode (s.hourNodes m) (hourStart m.node.ts)
      else s.nodeHour.cells i 0 :=
  rollUpInto_node (s.putMinute m).nodeHour (s.putMinute m).gpuHour _ _ _ (readGPURange
    (s.putMinute m).gpuMinute (hourStart m.node.ts) (hourStart m.node.ts + 3600)) i

/-- The hours of a lane after a minute. -/
theorem writeMinute_gpuHour (s : Store cfg) (m : Minute) (l : Fin cfg.gpuIDs.length) :
    RolledUp aggregateGPU l (hourBucket m.node.ts) (hourStart m.node.ts) (s.hourLane m l)
      s.gpuHour (s.writeMinute m).gpuHour :=
  rollUpInto_gpu (s.putMinute m).nodeHour _ _ _ (s.hourNodes m) _ l

/-- The days of the node after a minute. -/
theorem writeMinute_nodeDay (s : Store cfg) (m : Minute) (i : Nat) :
    (s.writeMinute m).nodeDay.cells i 0 =
      if i = slotOf (cfg.slots .day) (dayBucket cfg.location m.node.ts).1 then
        aggregateNode (readNodeRange (s.writeMinute m).nodeHour
          (dayBucket cfg.location m.node.ts).2.1 (dayBucket cfg.location m.node.ts).2.2)
          (dayBucket cfg.location m.node.ts).2.1
      else s.nodeDay.cells i 0 :=
  rollUpInto_node s.nodeDay s.gpuDay _ _ _ (readGPURange (s.writeMinute m).gpuHour
    (dayBucket cfg.location m.node.ts).2.1 (dayBucket cfg.location m.node.ts).2.2) i

/-- The days of a lane after a minute. -/
theorem writeMinute_gpuDay (s : Store cfg) (m : Minute) (l : Fin cfg.gpuIDs.length) :
    RolledUp aggregateGPU l (dayBucket cfg.location m.node.ts).1
      (dayBucket cfg.location m.node.ts).2.1
      (laneRecs cfg l (readGPURange (s.writeMinute m).gpuHour
        (dayBucket cfg.location m.node.ts).2.1 (dayBucket cfg.location m.node.ts).2.2))
      s.gpuDay (s.writeMinute m).gpuDay :=
  rollUpInto_gpu s.nodeDay _ _ _ (readNodeRange (s.writeMinute m).nodeHour
    (dayBucket cfg.location m.node.ts).2.1 (dayBucket cfg.location m.node.ts).2.2) _ l

end Viiwork.Energy
