import Mathlib

/-!
# Viiwork.Setup.Plan

The layout of a host with unified memory (`internal/setup/plan`): models share one budget, are
taken largest first while they fit at their smallest context, and then get more context, largest
model first, as far as the budget allows. Integers do not overflow.

One turn of the second pass leaves its model with no larger step that would fit (`raise_spec`).
Later turns only use more of the budget, so this stays true of the finished plan
(`unified_spec`).
-/

namespace Viiwork.Setup

open List

/-! ### Models and their estimates -/

/-- What the planner reads of a model file (`gguf.Info`). -/
structure Info where
  contextLength : Int
  headDim : Int
  kvHeads : Int
  size : Int

/-- The f16 KV cache that one token costs, if the header says enough. -/
def Info.kvBytesPerToken (i : Info) : Option Int :=
  if i.kvHeads ≤ 0 ∨ i.headDim ≤ 0 then none else some (2 * i.kvHeads * i.headDim * 2)

structure Model where
  name : String
  info : Info

/-- The contexts per slot that are offered, smallest first. -/
def contextSteps : List Int := [8192, 16384, 32768, 49152, 65536]

def overheadMB : Int := 1024

def defaultParallel : Int := 2

def mib : Int := 2 ^ 20

namespace Model

def weightsMB (m : Model) : Int := (m.info.size + mib - 1).tdiv mib

/-- The contexts that the model may be given, largest first. -/
def steps (m : Model) : List Int :=
  let trained := m.info.contextLength
  let out := contextSteps.reverse.filter fun c => trained ≤ 0 ∨ c ≤ trained
  if out = [] then [trained] else out

theorem steps_ne_nil (m : Model) : m.steps ≠ [] := by
  simp only [steps]
  split_ifs with h
  · simp
  · exact h

/-- The last of the steps. -/
def smallest (m : Model) : Int := m.steps.getLast m.steps_ne_nil

/-- One backend of the model across `cards` cards at `ctx` per slot. The source also answers
whether the KV size is known. -/
def needMB (m : Model) (ctx cards : Int) : Int :=
  m.weightsMB +
    (m.info.kvBytesPerToken.getD 0 * ctx * defaultParallel + mib - 1).tdiv mib + cards * overheadMB

end Model

structure Placement where
  name : String
  gpus : List Int
  perBackend : Int
  context : Int
  parallel : Int
  needMB : Int
  uncertain : Bool

structure Refused where
  name : String
  reason : String

structure Plan where
  placed : List Placement
  refused : List Refused

/-! ### The two passes -/

/-- The budget without the headroom. -/
def availMB (budgetMB : Int) : Int := budgetMB - max (4 * 1024) ((budgetMB * 15).tdiv 100)

/-- The models in the order of their turns. -/
def order (models : List Model) : List Model :=
  models.insertionSort fun m m' => m'.weightsMB ≤ m.weightsMB

/-- The state of the first pass. -/
structure Admission where
  admitted : List Model := []
  refused : List Refused := []
  used : Int := 0

def Admission.turn (budgetMB : Int) (a : Admission) (m : Model) : Admission :=
  let need := m.needMB m.smallest 1
  if a.used + need > availMB budgetMB then
    { a with refused := a.refused ++ [⟨m.name,
        "needs about " ++ toString need ++ " MiB even at " ++ toString m.smallest ++
        " tokens per slot; " ++ toString (availMB budgetMB - a.used) ++ " MiB of the " ++
        toString budgetMB ++ " MiB budget are left after headroom"⟩] }
  else { a with admitted := a.admitted ++ [m], used := a.used + need }

def turns (budgetMB : Int) (ms : List Model) : Admission := ms.foldl (Admission.turn budgetMB) {}

/-- One turn of the second pass: what is used then, and the context of the model. -/
def raise (avail used : Int) (m : Model) : Int × Int :=
  let base := m.needMB m.smallest 1
  if m.info.kvBytesPerToken.isNone then (used, m.smallest)
  else
    match m.steps.find? fun c => used - base + m.needMB c 1 ≤ avail with
    | some c => (used + (m.needMB c 1 - base), c)
    | none => (used, m.smallest)

def raiseAll (avail : Int) : Int → List Model → List (Model × Int)
  | _, [] => []
  | used, m :: ms => (m, (raise avail used m).2) :: raiseAll avail (raise avail used m).1 ms

def placement (m : Model) (ctx : Int) : Placement :=
  ⟨m.name, [0], 1, ctx, defaultParallel, m.needMB ctx 1, m.info.kvBytesPerToken.isNone⟩

/-- `Unified`. -/
def unified (budgetMB : Int) (models : List Model) : Plan :=
  let a := turns budgetMB (order models)
  ⟨(raiseAll (availMB budgetMB) a.used a.admitted).map fun p => placement p.1 p.2, a.refused⟩

/-! ### Steps -/

variable {m : Model} {c ctx avail used budgetMB : Int}

theorem steps_pairwise (m : Model) : m.steps.Pairwise (· > ·) := by
  simp only [Model.steps]
  split_ifs
  · simp
  · exact List.Pairwise.filter _ (by decide)

theorem smallest_le (h : c ∈ m.steps) : m.smallest ≤ c :=
  ((steps_pairwise m).imp (S := (· ≥ ·)) le_of_lt).rel_getLast h

theorem needMB_mono (hkv : m.info.kvBytesPerToken.isNone = false) (h : c ≤ ctx) :
    m.needMB c 1 ≤ m.needMB ctx 1 := by
  obtain ⟨kv, hkv⟩ := Option.isSome_iff_exists.1 (Option.isNone_eq_false_iff.1 hkv)
  have hpos : 0 ≤ kv := by
    simp only [Info.kvBytesPerToken, Option.ite_none_left_eq_some, not_or, not_le,
      Option.some.injEq] at hkv
    nlinarith [Int.mul_pos hkv.1.1 hkv.1.2]
  have hmul : kv * c ≤ kv * ctx := Int.mul_le_mul_of_nonneg_left h hpos
  have hdiv : (kv * c * 2 + mib - 1).tdiv mib ≤ (kv * ctx * 2 + mib - 1).tdiv mib :=
    Int.tdiv_le_tdiv (by decide) (by omega)
  simp only [Model.needMB, hkv, Option.getD_some, defaultParallel]
  omega

/-! ### The second pass -/

/-- **One turn.** It uses no less than before, and no more than there is if that was so before.
The model is then left with no larger step that fits. -/
theorem raise_spec (avail used : Int) (m : Model) :
    (raise avail used m).1 = used - m.needMB m.smallest 1 + m.needMB (raise avail used m).2 1 ∧
      used ≤ (raise avail used m).1 ∧ (used ≤ avail → (raise avail used m).1 ≤ avail) ∧
      (m.info.kvBytesPerToken.isNone = false → ∀ c ∈ m.steps, (raise avail used m).2 < c →
        avail < used - m.needMB m.smallest 1 + m.needMB c 1) := by
  unfold raise
  dsimp only
  split_ifs with hkv
  · exact ⟨by simp, le_rfl, id, fun hno => by simp [hkv] at hno⟩
  have hkv' := Bool.eq_false_of_not_eq_true hkv
  split
  · rename_i ctx hfind
    obtain ⟨hfits, pre, post, hsteps, hpre⟩ := List.find?_eq_some_iff_append.1 hfind
    have hmem : ctx ∈ m.steps := mem_of_find?_eq_some hfind
    have hle := needMB_mono hkv' (smallest_le hmem)
    refine ⟨by ring, by omega, fun _ => by simp at hfits; omega, fun _ c hc hlt => ?_⟩
    -- a larger step comes before it in the list, and did not fit
    have hpair := steps_pairwise m
    rw [hsteps] at hc hpair
    obtain hc | hc := mem_append.1 hc
    · simpa using hpre c hc
    · obtain ⟨-, hpost⟩ := pairwise_append.1 hpair
      have hpost := pairwise_cons.1 hpost.1
      obtain rfl | hc := mem_cons.1 hc
      · omega
      · have := hpost.1 c hc
        omega
  · rename_i hfind
    refine ⟨by simp, le_rfl, id, fun _ c hc _ => ?_⟩
    simpa using List.find?_eq_none.1 hfind c hc

/-- What the models use at their smallest context. -/
def leastMB (ms : List Model) : Int := (ms.map fun m => m.needMB m.smallest 1).sum

def totalMB (ps : List (Model × Int)) : Int := (ps.map fun p => p.1.needMB p.2 1).sum

/-- **The whole pass.** -/
theorem raiseAll_spec (avail used : Int) (ms : List Model) :
    let total := used - leastMB ms + totalMB (raiseAll avail used ms)
    used ≤ total ∧ (used ≤ avail → total ≤ avail) ∧
      ∀ p ∈ raiseAll avail used ms, p.1.info.kvBytesPerToken.isNone = false →
        ∀ c ∈ p.1.steps, p.2 < c → avail < total - p.1.needMB p.2 1 + p.1.needMB c 1 := by
  induction ms generalizing used with
  | nil => simp [raiseAll, leastMB, totalMB]
  | cons m ms ih =>
    obtain ⟨heq, hge, hle, hmax⟩ := raise_spec avail used m
    obtain ⟨hge', hle', hmax'⟩ := ih (raise avail used m).1
    have htotal : used - leastMB (m :: ms) + totalMB (raiseAll avail used (m :: ms)) =
        (raise avail used m).1 - leastMB ms +
          totalMB (raiseAll avail (raise avail used m).1 ms) := by
      simp only [raiseAll, leastMB, totalMB, map_cons, sum_cons]
      omega
    dsimp only
    rw [htotal]
    refine ⟨by omega, fun h => hle' (hle h), fun p hp hkv c hc hlt => ?_⟩
    obtain rfl | hp := mem_cons.1 hp
    · have := hmax hkv c hc hlt
      dsimp only
      omega
    · exact hmax' p hp hkv c hc hlt

/-! ### The plan -/

/-- What is used is what the admitted models need, and is there if there are any. -/
theorem turns_used (budgetMB : Int) (ms : List Model) :
    (turns budgetMB ms).used = leastMB (turns budgetMB ms).admitted ∧
      ((turns budgetMB ms).admitted ≠ [] → (turns budgetMB ms).used ≤ availMB budgetMB) := by
  refine List.foldlRecOn (motive := fun a : Admission => a.used = leastMB a.admitted ∧
    (a.admitted ≠ [] → a.used ≤ availMB budgetMB)) ms _ ⟨rfl, by simp⟩ ?_
  intro a ha m _
  unfold Admission.turn
  dsimp only
  split_ifs with hfull
  · exact ha
  · refine ⟨?_, fun _ => not_lt.1 hfull⟩
    simp [leastMB, ha.1]

theorem map_fst_raiseAll (avail used : Int) (ms : List Model) :
    (raiseAll avail used ms).map Prod.fst = ms := by
  induction ms generalizing used with
  | nil => rfl
  | cons m ms ih => simp [raiseAll, ih]

/-- Later turns add to both lists. -/
theorem turns_append (budgetMB : Int) (ms ms' : List Model) :
    (turns budgetMB ms).admitted <+: (turns budgetMB (ms ++ ms')).admitted ∧
      (turns budgetMB ms).refused <+: (turns budgetMB (ms ++ ms')).refused := by
  rw [turns, turns, foldl_append]
  generalize ms.foldl (Admission.turn budgetMB) {} = a
  refine List.foldlRecOn (motive := fun a' : Admission => a.admitted <+: a'.admitted ∧
    a.refused <+: a'.refused) ms' _ ⟨prefix_rfl, prefix_rfl⟩ ?_
  intro a' ha m _
  unfold Admission.turn
  dsimp only
  split_ifs
  · exact ⟨ha.1, ha.2.trans (prefix_append _ _)⟩
  · exact ⟨ha.1.trans (prefix_append _ _), ha.2⟩

/-- **A plan for unified memory** stays within the budget if it places any model. A model is
refused at its turn exactly if it does not fit beside those admitted before it, all at their
smallest contexts. No placed model with a known KV size could have a larger step of its own. -/
theorem unified_spec (budgetMB : Int) (models : List Model) :
    let plan := unified budgetMB models
    let admitted := (turns budgetMB (order models)).admitted
    let total := (plan.placed.map Placement.needMB).sum
    (plan.placed ≠ [] → total ≤ availMB budgetMB) ∧
    (∀ pre m post, order models = pre ++ m :: post →
      let before := turns budgetMB pre
      let after := turns budgetMB (pre ++ [m])
      after.admitted <+: admitted ∧ after.refused <+: plan.refused ∧
        if availMB budgetMB < leastMB before.admitted + m.needMB m.smallest 1 then
          after.admitted = before.admitted ∧
            ∃ reason, after.refused = before.refused ++ [⟨m.name, reason⟩]
        else after.admitted = before.admitted ++ [m] ∧ after.refused = before.refused) ∧
    plan.placed.map Placement.name = admitted.map Model.name ∧
    ∀ m p, (m, p) ∈ admitted.zip plan.placed → m.info.kvBytesPerToken.isNone = false →
      ∀ c ∈ m.steps, p.context < c → availMB budgetMB < total - p.needMB + m.needMB c 1 := by
  dsimp only
  obtain ⟨hused, hfits⟩ := turns_used budgetMB (order models)
  set a := turns budgetMB (order models)
  set rs := raiseAll (availMB budgetMB) a.used a.admitted with hrs
  have hplaced : (unified budgetMB models).placed = rs.map fun p => placement p.1 p.2 := rfl
  have hfst : rs.map Prod.fst = a.admitted := map_fst_raiseAll _ _ _
  obtain ⟨-, hle, hmax⟩ := raiseAll_spec (availMB budgetMB) a.used a.admitted
  rw [← hrs, hused, sub_self, zero_add] at hle hmax
  have htotal : ((unified budgetMB models).placed.map Placement.needMB).sum = totalMB rs := by
    rw [hplaced, map_map]
    rfl
  clear_value rs
  rw [htotal, hplaced]
  refine ⟨fun hne => hle (hused ▸ hfits fun hnil => hne ?_), fun pre m post horder => ?_, ?_, ?_⟩
  · rw [← hfst, map_eq_nil_iff] at hnil
    simp [hnil]
  · obtain ⟨hadm, href⟩ := turns_append budgetMB (pre ++ [m]) post
    rw [append_assoc, singleton_append, ← horder] at hadm href
    refine ⟨hadm, href, ?_⟩
    have hturn : turns budgetMB (pre ++ [m]) = (turns budgetMB pre).turn budgetMB m := by
      simp [turns]
    rw [hturn, ← (turns_used budgetMB pre).1, Admission.turn]
    split_ifs
    · exact ⟨rfl, _, rfl⟩
    · exact ⟨rfl, rfl⟩
  · rw [← hfst, map_map, map_map]
    rfl
  · intro m p hmem hkv c hc hlt
    rw [← hfst, zip_map'] at hmem
    obtain ⟨q, hq, heq⟩ := mem_map.1 hmem
    obtain ⟨rfl, rfl⟩ := Prod.mk.inj heq
    exact hmax q hq hkv c hc hlt

/-- A budget below the headroom, and nothing placed. -/
theorem unified_spec_small : ((unified 1000 []).placed.map Placement.needMB).sum = 0 ∧
    availMB 1000 < 0 := by
  decide +kernel

end Viiwork.Setup
