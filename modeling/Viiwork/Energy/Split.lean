import Viiwork.Energy.Store
import Viiwork.Lib.Bytes

/-!
# Viiwork.Energy.Split

From the meter to the client (`energy/attribute.go`, `energy/client.go`): `attributePower` charges
node power to GPUs, `splitClients` divides the energy of each model between the clients that used it, and
`fold` makes the shares of a minute fit the lanes of the client ring.

Each stage keeps the sum. What it does not charge it has a place for: the baseline, the share of
nobody, and the record of the other clients.
-/

namespace Viiwork.Energy

open Viiwork.Lib List

/-! ### Attribution -/

/-- One observation of a GPU. -/
structure GPUReading where
  gpuID : Int
  watts : ℚ

/-- Node power, split between the GPUs and the baseline. -/
structure Attribution where
  baselineW : ℚ
  watts : List (Int × ℚ)

/-- How far a GPU is above its idle floor. -/
def marginal (gpuIdle : Int → ℚ) (r : GPUReading) : ℚ :=
  let m := r.watts - gpuIdle r.gpuID
  if m < 0 then 0 else m

/-- The baseline in force: the lower of the floor and what the GPUs do not explain. -/
def baselineOf (nodeW totalMarginal nodeBaseline : ℚ) : ℚ :=
  let inferred := nodeW - totalMarginal
  let nodeBaseline := if inferred < nodeBaseline then inferred else nodeBaseline
  if nodeBaseline < 0 then 0 else nodeBaseline

/-- `Attribute` (a reserved word here). A GPU without a floor has the floor zero. -/
def attributePower (nodeW : ℚ) (readings : List GPUReading) (gpuIdle : Int → ℚ) (nodeBaseline : ℚ) :
    Attribution :=
  let totalMarginal := (readings.map (marginal gpuIdle)).sum
  let work :=
    let work := nodeW - baselineOf nodeW totalMarginal nodeBaseline
    if work < 0 then 0 else work
  let watts := (firsts (readings.map (·.gpuID))).map fun id =>
    -- the map keeps the last reading of a GPU
    let m := ((lastWith GPUReading.gpuID id readings).map (marginal gpuIdle)).getD 0
    (id, if 0 < totalMarginal ∧ 0 < work then work * m / totalMarginal else 0)
  let charged := (watts.map Prod.snd).sum
  { baselineW := if nodeW - charged < 0 then 0 else nodeW - charged
    watts := watts }

theorem marginal_nonneg (gpuIdle : Int → ℚ) (r : GPUReading) : 0 ≤ marginal gpuIdle r := by
  by_cases h : r.watts - gpuIdle r.gpuID < 0
  · simp [marginal, h]
  · simp only [marginal, h, if_false]
    exact not_lt.1 h

theorem baselineOf_nonneg (nodeW totalMarginal nodeBaseline : ℚ) :
    0 ≤ baselineOf nodeW totalMarginal nodeBaseline := by
  by_cases h : (if nodeW - totalMarginal < nodeBaseline then nodeW - totalMarginal
      else nodeBaseline) < 0
  · simp [baselineOf, h]
  · simp only [baselineOf, h, if_false]
    exact not_lt.1 h

variable {readings : List GPUReading} {ε : Type} {modelIndex : Bytes → Except ε Nat}
  {uses : List ClientUse} {other : Except ε Nat} {lanes : Nat}

/-- Readings of distinct GPUs have their marginals in the map. -/
theorem sum_marginal (hdistinct : (readings.map (·.gpuID)).Nodup) (gpuIdle : Int → ℚ) :
    ((firsts (readings.map (·.gpuID))).map fun id =>
      ((lastWith GPUReading.gpuID id readings).map (marginal gpuIdle)).getD 0).sum =
      (readings.map (marginal gpuIdle)).sum := by
  have hperm : (firsts (readings.map (·.gpuID))).Perm (readings.map (·.gpuID)) := by
    rw [perm_ext_iff_of_nodup (firsts_nodup _) hdistinct]
    exact fun _ => mem_firsts
  rw [(hperm.map _).sum_eq, map_map]
  congr 1
  refine map_congr_left ?_
  intro r hr
  rw [Function.comp_apply, lastWith_of_mem hdistinct hr]
  rfl

/-- **Attribution reconciles**: baseline and charges are the node's power, and none is negative. -/
theorem attributePower_sum {nodeW : ℚ} (hnode : 0 ≤ nodeW)
    (hdistinct : (readings.map (·.gpuID)).Nodup) (gpuIdle : Int → ℚ) (nodeBaseline : ℚ) :
    let a := attributePower nodeW readings gpuIdle nodeBaseline
    a.baselineW + (a.watts.map Prod.snd).sum = nodeW ∧ 0 ≤ a.baselineW ∧ ∀ w ∈ a.watts, 0 ≤ w.2 := by
  have hbase := baselineOf_nonneg nodeW (readings.map (marginal gpuIdle)).sum nodeBaseline
  have hsum := sum_marginal hdistinct gpuIdle
  simp only [attributePower]
  generalize baselineOf nodeW (readings.map (marginal gpuIdle)).sum nodeBaseline = base at hbase ⊢
  generalize hwork : (if nodeW - base < 0 then 0 else nodeW - base) = work
  have hwork0 : 0 ≤ work ∧ work ≤ nodeW := by
    rw [← hwork]
    split
    · exact ⟨le_refl 0, hnode⟩
    · constructor <;> linarith
  generalize (readings.map (marginal gpuIdle)).sum = total at hsum ⊢
  -- what is charged is the work, or nothing
  have hcharged : (((firsts (readings.map (·.gpuID))).map fun id => (id,
      if 0 < total ∧ 0 < work then
        work * ((lastWith GPUReading.gpuID id readings).map (marginal gpuIdle)).getD 0 / total
      else 0)).map Prod.snd).sum = if 0 < total ∧ 0 < work then work else 0 := by
    rw [map_map]
    by_cases h : 0 < total ∧ 0 < work
    · simp only [Function.comp_def, h, and_self, if_true]
      simp only [mul_div_right_comm]
      rw [sum_map_mul_left, hsum, div_mul_cancel₀ _ h.1.ne']
    · simp [Function.comp_def, h]
  rw [hcharged]
  have hle : (if 0 < total ∧ 0 < work then work else 0) ≤ nodeW := by
    split
    · exact hwork0.2
    · exact hnode
  rw [if_neg (by linarith)]
  refine ⟨by ring, by linarith, ?_⟩
  intro w hw
  obtain ⟨id, -, rfl⟩ := mem_map.1 hw
  simp only
  split
  · rename_i h
    refine div_nonneg (mul_nonneg hwork0.1 ?_) h.1.le
    cases lastWith GPUReading.gpuID id readings with
    | none => exact le_refl 0
    | some r => exact marginal_nonneg gpuIdle r
  · exact le_refl 0

/-! ### Clients -/

/-- A client's use of a model in a minute. -/
structure ClientUse where
  client : Bytes
  model : Bytes
  busyS : ℚ
  tokens : Nat

/-- A pair's part of a minute. The empty client is nobody. -/
structure ClientShare where
  client : Bytes
  modelIdx : Nat
  wh : ℚ
  busyS : ℚ
  tokens : Nat
  deriving DecidableEq

/-- The energy of a model's cards in the minute; index 0 is no model. -/
def modelEnergy (gpus : List GPURecord) (idx : Nat) : ℚ :=
  (((gpus.filter (·.modelIdx ≠ 0)).filter (·.modelIdx = idx)).map fun g =>
    g.attrW * (g.coveredS : ℚ) / 3600).sum

/-- The uses that count, each with the index of its model. -/
def indexedUses {ε : Type} (modelIndex : Bytes → Except ε Nat) :
    List ClientUse → Except ε (List (ClientUse × Nat))
  | [] => .ok []
  | u :: uses =>
    if u.client = [] ∨ u.model = [] then indexedUses modelIndex uses
    else do
      let idx ← modelIndex u.model
      let rest ← indexedUses modelIndex uses
      return (u, idx) :: rest

/-- The busy seconds of a model. -/
def modelBusy (used : List (ClientUse × Nat)) (idx : Nat) : ℚ :=
  ((used.filter (·.2 = idx)).map fun u => u.1.busyS).sum

/-- The share of a pair. -/
def pairShare (gpus : List GPURecord) (used : List (ClientUse × Nat)) (p : Bytes × Nat) :
    ClientShare :=
  let mine := used.filter fun u => (u.1.client, u.2) = p
  let busy := (mine.map fun u => u.1.busyS).sum
  { client := p.1
    modelIdx := p.2
    wh := if 0 < modelBusy used p.2 then modelEnergy gpus p.2 * busy / modelBusy used p.2 else 0
    busyS := busy
    tokens := (mine.map fun u => u.1.tokens).sum % 2 ^ 64 }

/-- The share of nobody. -/
def nobodyShare (gpus : List GPURecord) (idx : Nat) : ClientShare :=
  { client := [], modelIdx := idx, wh := modelEnergy gpus idx, busyS := 0, tokens := 0 }

/-- The pairs in the order of their first use. -/
def pairsOf (used : List (ClientUse × Nat)) : List (Bytes × Nat) :=
  firsts (used.map fun u => (u.1.client, u.2))

/-- The models in the order of their first card, those that somebody used or that drew nothing left
out. -/
def idleModels (gpus : List GPURecord) (used : List (ClientUse × Nat)) : List Nat :=
  (firsts ((gpus.filter (·.modelIdx ≠ 0)).map (·.modelIdx))).filter fun idx =>
    ¬ (0 < modelBusy used idx ∨ modelEnergy gpus idx = 0)

/-- `SplitClients`. -/
def splitClients {ε : Type} (gpus : List GPURecord) (uses : List ClientUse)
    (modelIndex : Bytes → Except ε Nat) : Except ε (List ClientShare) := do
  let used ← indexedUses modelIndex uses
  return (pairsOf used).map (pairShare gpus used) ++ (idleModels gpus used).map (nobodyShare gpus)

theorem indexedUses_ok
    (h : ∀ u ∈ uses, u.client ≠ [] → u.model ≠ [] → ∃ idx, modelIndex u.model = .ok idx) :
    ∃ used, indexedUses modelIndex uses = .ok used := by
  induction uses with
  | nil => exact ⟨[], rfl⟩
  | cons u uses ih =>
    rw [forall_mem_cons] at h
    obtain ⟨used, hused⟩ := ih h.2
    rw [indexedUses]
    by_cases hskip : u.client = [] ∨ u.model = []
    · rw [if_pos hskip]
      exact ⟨used, hused⟩
    · rw [if_neg hskip]
      push Not at hskip
      obtain ⟨idx, hidx⟩ := h.1 hskip.1 hskip.2
      rw [hidx, hused]
      exact ⟨(u, idx) :: used, rfl⟩

/-- The busy seconds of a model's pairs are the model's. -/
theorem sum_pair_busy (used : List (ClientUse × Nat)) (idx : Nat) :
    (((pairsOf used).filter (·.2 = idx)).map fun p =>
      ((used.filter fun u => (u.1.client, u.2) = p).map fun u => u.1.busyS).sum).sum =
      modelBusy used idx := by
  have hby := sum_by_key (fun u : ClientUse × Nat => (u.1.client, u.2)) (fun u => u.1.busyS)
    ((firsts_nodup (used.map fun u => (u.1.client, u.2))).filter (·.2 = idx))
    (l := used.filter (·.2 = idx)) (by
      intro u hu
      rw [mem_filter, decide_eq_true_eq] at hu
      rw [mem_filter, mem_firsts, decide_eq_true_eq]
      exact ⟨mem_map.2 ⟨u, hu.1, rfl⟩, hu.2⟩)
  rw [modelBusy, ← hby]
  congr 1
  refine map_congr_left ?_
  intro p hp
  rw [mem_filter, decide_eq_true_eq] at hp
  rw [filter_filter]
  congr 2
  refine filter_congr ?_
  intro u _
  by_cases hu : (u.1.client, u.2) = p
  · simp [← hp.2, ← hu]
  · simp [hu]

/-- The pairs of a model that somebody used share its energy. -/
theorem sum_pairShare (gpus : List GPURecord) (used : List (ClientUse × Nat)) (idx : Nat) :
    (((pairsOf used).filter (·.2 = idx)).map fun p => (pairShare gpus used p).wh).sum =
      if 0 < modelBusy used idx then modelEnergy gpus idx else 0 := by
  have hshare : ∀ p ∈ (pairsOf used).filter (·.2 = idx), (pairShare gpus used p).wh =
      (if 0 < modelBusy used idx then modelEnergy gpus idx / modelBusy used idx else 0) *
        ((used.filter fun u => (u.1.client, u.2) = p).map fun u => u.1.busyS).sum := by
    intro p hp
    rw [mem_filter, decide_eq_true_eq] at hp
    rw [pairShare, hp.2]
    simp only
    split
    · ring
    · rw [zero_mul]
  rw [map_congr_left hshare, sum_map_mul_left, sum_pair_busy]
  split
  · rename_i h
    rw [div_mul_cancel₀ _ h.ne']
  · rw [zero_mul]

/-- The share of nobody in a model that nobody used. -/
theorem sum_nobodyShare (gpus : List GPURecord) (used : List (ClientUse × Nat)) (idx : Nat) :
    (((idleModels gpus used).filter (· = idx)).map fun idx => (nobodyShare gpus idx).wh).sum =
      if 0 < modelBusy used idx then 0 else modelEnergy gpus idx := by
  have hnodup : (idleModels gpus used).Nodup := (firsts_nodup _).filter _
  by_cases hmem : idx ∈ idleModels gpus used
  · have hone : (idleModels gpus used).filter (· = idx) = [idx] := by
      rw [filter_eq, count_eq_one_of_mem hnodup hmem]
      rfl
    have hidle := (mem_filter.1 hmem).2
    rw [decide_eq_true_eq, not_or] at hidle
    rw [hone, if_neg hidle.1]
    simp [nobodyShare]
  · have hnone : (idleModels gpus used).filter (· = idx) = [] := by
      rw [filter_eq_nil_iff]
      intro x hx heq
      rw [decide_eq_true_eq] at heq
      exact hmem (heq ▸ hx)
    rw [hnone, map_nil, sum_nil]
    split
    · rfl
    · -- a model without a share of nobody that nobody used drew nothing
      rename_i hbusy
      by_contra hne
      refine hmem (mem_filter.2 ⟨?_, ?_⟩)
      · rw [mem_firsts, mem_map]
        by_contra hno
        refine hne ?_
        rw [modelEnergy, filter_eq_nil_iff.2, map_nil, sum_nil]
        intro g hg heq
        rw [decide_eq_true_eq] at heq
        exact hno ⟨g, hg, heq⟩
      · rw [decide_eq_true_eq, not_or]
        exact ⟨hbusy, fun h => hne h.symm⟩

/-- **The shares of a model are its energy.** -/
theorem splitClients_sum {gpus : List GPURecord} {shares : List ClientShare}
    (h : splitClients gpus uses modelIndex = .ok shares) (idx : Nat) :
    ((shares.filter (·.modelIdx = idx)).map (·.wh)).sum = modelEnergy gpus idx := by
  unfold splitClients at h
  cases hused : indexedUses modelIndex uses with
  | error e =>
    rw [hused] at h
    cases h
  | ok used =>
    rw [hused] at h
    obtain rfl : _ = shares := Except.ok.inj h
    rw [filter_append, map_append, sum_append, filter_map, filter_map,
      map_map, map_map]
    have hpairs := sum_pairShare gpus used idx
    have hnobody := sum_nobodyShare gpus used idx
    simp only [Function.comp_def] at hpairs hnobody ⊢
    simp only [show ∀ p, (pairShare gpus used p).modelIdx = p.2 from fun _ => rfl,
      show ∀ i, (nobodyShare gpus i).modelIdx = i from fun _ => rfl, hpairs, hnobody]
    split
    · rw [add_zero]
    · rw [zero_add]

/-! ### Lanes -/

/-- One time bucket of one pair. -/
structure ClientRecord where
  ts : Int
  clientIdx : Nat
  modelIdx : Nat
  wh : ℚ
  busyS : Nat
  tokens : Nat
  deriving DecidableEq, Inhabited

def maxUint32 : Nat := 2 ^ 32 - 1

def clampUint32 (v : Nat) : Nat := min v maxUint32

/-- The records, the largest first; those of one energy keep their order. -/
def byEnergy (recs : List ClientRecord) : List ClientRecord :=
  recs.insertionSort fun a b => b.wh ≤ a.wh

/-- The record of the pairs that have no lane. -/
def restOf (other : Nat) (ts : Int) (recs : List ClientRecord) : ClientRecord :=
  { ts := ts
    clientIdx := other
    modelIdx := 0
    wh := (recs.map (·.wh)).sum
    busyS := clampUint32 (recs.map (·.busyS)).sum
    tokens := clampUint32 (recs.map (·.tokens)).sum }

/-- `fold`, with the answer of the name table for the client "other". -/
def fold {ε : Type} (other : Except ε Nat) (lanes : Nat) (recs : List ClientRecord) (ts : Int) :
    Except ε (List ClientRecord) :=
  if recs.length ≤ lanes then .ok recs
  else do
    let idx ← other
    return (byEnergy recs).take (lanes - 1) ++ [restOf idx ts ((byEnergy recs).drop (lanes - 1))]

/-- Whether a counter of the record of the others is cut off. -/
def Clamps (lanes : Nat) (recs : List ClientRecord) : Prop :=
  lanes < recs.length ∧
    (maxUint32 < (((byEnergy recs).drop (lanes - 1)).map (·.busyS)).sum ∨
      maxUint32 < (((byEnergy recs).drop (lanes - 1)).map (·.tokens)).sum)

/-- A sum over the records and over what is taken and dropped of them by energy. -/
theorem sum_byEnergy {M : Type*} [AddCommMonoid M] (f : ClientRecord → M)
    (recs : List ClientRecord) (n : Nat) :
    (((byEnergy recs).take n).map f).sum + (((byEnergy recs).drop n).map f).sum =
      (recs.map f).sum := by
  rw [← sum_append, ← map_append, take_append_drop]
  exact ((perm_insertionSort _ recs).map f).sum_eq

/-- **Folding keeps the totals.** -/
theorem fold_sum {recs recs' : List ClientRecord} {ts : Int}
    (h : fold other lanes recs ts = .ok recs') (hclamp : ¬ Clamps lanes recs) :
    (recs'.map (·.wh)).sum = (recs.map (·.wh)).sum ∧
      (recs'.map (·.busyS)).sum = (recs.map (·.busyS)).sum ∧
      (recs'.map (·.tokens)).sum = (recs.map (·.tokens)).sum := by
  unfold fold at h
  by_cases hfit : recs.length ≤ lanes
  · rw [if_pos hfit] at h
    obtain rfl := Except.ok.inj h
    exact ⟨rfl, rfl, rfl⟩
  · rw [if_neg hfit] at h
    cases other with
    | error e => cases h
    | ok idx =>
      obtain rfl := Except.ok.inj h
      unfold Clamps at hclamp
      push Not at hclamp
      obtain ⟨hbusy, htokens⟩ := hclamp (by omega)
      simp only [map_append, map_cons, map_nil, sum_append, sum_cons,
        sum_nil, add_zero, restOf, clampUint32, Nat.min_eq_left hbusy,
        Nat.min_eq_left htokens]
      exact ⟨sum_byEnergy _ recs _, sum_byEnergy _ recs _, sum_byEnergy _ recs _⟩

/-- The folded records fit. -/
theorem fold_ok {idx : Nat} (hother : other = .ok idx) (hlanes : 0 < lanes)
    (recs : List ClientRecord) (ts : Int) :
    ∃ recs', fold other lanes recs ts = .ok recs' ∧ recs'.length ≤ lanes := by
  unfold fold
  by_cases hfit : recs.length ≤ lanes
  · rw [if_pos hfit]
    exact ⟨recs, rfl, hfit⟩
  · rw [if_neg hfit, hother]
    refine ⟨_, rfl, ?_⟩
    simp only [length_append, length_take, length_cons, length_nil]
    omega

/-! ### From the meter to the client -/

/-- **Energy is conserved** by each stage: by the attribution for distinct GPUs, by the split for
every model index, and by the fold as long as no counter clamps. -/
theorem energy_conserved {nodeW : ℚ} (hnode : 0 ≤ nodeW) {readings : List GPUReading}
    (hdistinct : (readings.map (·.gpuID)).Nodup) (gpuIdle : Int → ℚ) (nodeBaseline : ℚ)
    (gpus : List GPURecord) {uses : List ClientUse} {ε : Type} {modelIndex : Bytes → Except ε Nat}
    (hindex : ∀ u ∈ uses, u.client ≠ [] → u.model ≠ [] → ∃ idx, modelIndex u.model = .ok idx)
    {lanes : Nat} (hlanes : 2 ≤ lanes) {other : Except ε Nat} {idx : Nat} (hother : other = .ok idx)
    (recs : List ClientRecord) (hclamp : ¬ Clamps lanes recs) (ts : Int) :
    ((attributePower nodeW readings gpuIdle nodeBaseline).baselineW +
          ((attributePower nodeW readings gpuIdle nodeBaseline).watts.map Prod.snd).sum = nodeW ∧
        0 ≤ (attributePower nodeW readings gpuIdle nodeBaseline).baselineW ∧
        ∀ w ∈ (attributePower nodeW readings gpuIdle nodeBaseline).watts, 0 ≤ w.2) ∧
      (∃ shares, splitClients gpus uses modelIndex = .ok shares ∧
        (∀ idx, idx ≠ 0 → ((shares.filter (·.modelIdx = idx)).map (·.wh)).sum =
          ((gpus.filter (·.modelIdx = idx)).map fun g => g.attrW * (g.coveredS : ℚ) / 3600).sum) ∧
        ((shares.filter (·.modelIdx = 0)).map (·.wh)).sum = 0) ∧
      ∃ recs', fold other lanes recs ts = .ok recs' ∧ recs'.length ≤ lanes ∧
        (recs'.map (·.wh)).sum = (recs.map (·.wh)).sum ∧
        (recs'.map (·.busyS)).sum = (recs.map (·.busyS)).sum ∧
        (recs'.map (·.tokens)).sum = (recs.map (·.tokens)).sum := by
  refine ⟨attributePower_sum hnode hdistinct gpuIdle nodeBaseline, ?_, ?_⟩
  · obtain ⟨used, hused⟩ := indexedUses_ok hindex
    have hsplit : splitClients gpus uses modelIndex = .ok ((pairsOf used).map
        (pairShare gpus used) ++ (idleModels gpus used).map (nobodyShare gpus)) := by
      rw [splitClients, hused]
      rfl
    refine ⟨_, hsplit, ?_, ?_⟩
    · intro idx hidx
      rw [splitClients_sum hsplit, modelEnergy, filter_filter]
      congr 2
      refine filter_congr ?_
      intro g _
      by_cases hg : g.modelIdx = idx
      · simp [hg, hidx]
      · simp [hg]
    · rw [splitClients_sum hsplit, modelEnergy, filter_filter, filter_eq_nil_iff.2]
      · rfl
      · intro g _ hg
        simp at hg
  · obtain ⟨recs', hfold, hlen⟩ := fold_ok hother (show 0 < lanes by omega) recs ts
    exact ⟨recs', hfold, hlen, fold_sum hfold hclamp⟩

/-- Two clients of one model. -/
def twoUses : List ClientUse := [⟨[97], [109], 30, 5⟩, ⟨[98], [109], 10, 6⟩]

/-- A name table that knows one model. -/
def oneModel : Bytes → Except Unit Nat := fun _ => .ok 1

/-- Records of three pairs. -/
def threePairs : List ClientRecord :=
  [⟨60, 1, 1, 1, 30, 5⟩, ⟨60, 2, 1, 3, 20, 6⟩, ⟨60, 3, 1, 2, 10, 7⟩]

/-- A node of 730 W with a busy and an idle card, two clients, and two lanes for three pairs. -/
theorem energy_conserved_two_clients :
    let a := attributePower 730 [⟨0, 163⟩, ⟨1, 20⟩] (fun _ => 25) 195
    (a.baselineW + (a.watts.map Prod.snd).sum = 730) ∧
      (∃ shares, splitClients [⟨60, 0, 1, 120, 163, 60⟩] twoUses oneModel = .ok shares ∧
        ((shares.filter (·.modelIdx = 1)).map (·.wh)).sum =
          (([⟨60, 0, 1, 120, 163, 60⟩].filter (·.modelIdx = 1)).map fun g : GPURecord =>
            g.attrW * (g.coveredS : ℚ) / 3600).sum) ∧
      ∃ recs', fold (.ok 4 : Except Unit Nat) 2 threePairs 60 = .ok recs' ∧
        (recs'.map (·.wh)).sum = (threePairs.map (·.wh)).sum := by
  intro a
  have hindex : ∀ u ∈ twoUses, u.client ≠ [] → u.model ≠ [] →
      ∃ idx, oneModel u.model = .ok idx := fun _ _ _ _ => ⟨1, rfl⟩
  have hclamp : ¬ Clamps 2 threePairs := by
    unfold Clamps
    decide +kernel
  have h := energy_conserved (show (0 : ℚ) ≤ 730 by norm_num)
    (show ([⟨0, 163⟩, ⟨1, 20⟩].map GPUReading.gpuID).Nodup by decide) (fun _ => 25) 195
    [⟨60, 0, 1, 120, 163, 60⟩] hindex (le_refl 2)
    (show (.ok 4 : Except Unit Nat) = .ok 4 from rfl) threePairs hclamp 60
  obtain ⟨⟨hsum, -⟩, ⟨shares, hsplit, hshares, -⟩, recs', hfold, -, hwh, -⟩ := h
  exact ⟨hsum, ⟨shares, hsplit, hshares 1 (by decide)⟩, recs', hfold, hwh⟩

end Viiwork.Energy
