import Viiwork.Route.PickSpec

/-!
# Viiwork.Route.Finite

With finite scores the scored choice always chooses: a list of candidates that is
not empty gives one of them, never an index out of range.

The model computes in a type `F` of which nothing is assumed. `FiniteArith` lists
what of `float64` the choice rests on, for inputs that are numbers of moderate
size (`Num`) and the predictions they give (`Price`): a prediction is within the
band around itself, and its weight does not vanish. Exact arithmetic has these
properties (`finiteArith_rat`).
-/

namespace Viiwork.Route

open Float64 List

variable {β F : Type}

/-! ### The arithmetic -/

/-- What the choice needs of `float64`. -/
structure FiniteArith [Float64 F] (Num Price : F → Prop) : Prop where
  price : ∀ {ov rate estK rttMs : F}, Num ov → Num rate → Num estK → Num rttMs →
    Price (Float64.max (add (add ov (mul rate estK)) rttMs) (ofInt 1))
  overhead : ∀ {ov rttMs : F}, Num ov → Num rttMs →
    Price (Float64.max (add ov rttMs) (ofInt 1))
  min : ∀ {p q : F}, Price p → Price q → Price (Float64.min p q)
  /-- A prediction is not above the band's limit taken from itself. -/
  not_above : ∀ {p : F}, Price p → lt (mul p stickyBand) p = false
  within : ∀ {p : F}, Price p → le p (mul p stickyBand) = true
  weighs : ∀ {p : F}, Price p → isZero (div (ofInt 1) (mul (mul p p) p)) = false

/-- Every figure the choice computes from is a number, and the draws are not
negative. -/
structure FiniteInputs [Float64 F] (Num : F → Prop) (env : Env β F) (d : Draw F)
    (req : Request F) (reports : List Report) : Prop where
  zero : Num (ofInt 0)
  default : Num (ofInt defaultImportMsPer1k)
  estK : Num req.estK
  own : ∀ p, env.localScore req.model = some p → Num (ofInt p.1) ∧ Num (ofInt p.2)
  ownImport : ∀ p, env.localKVShare req.model = some p → Num (ofInt p.2)
  scores : ∀ rep ∈ reports, ∀ mc, rep.model req.model = some mc →
    Num (ofInt mc.ttftOverheadMs) ∧ Num (ofInt mc.prefillMsPer1k) ∧
      Num (ofInt mc.kvShareImportMsPer1k)
  rtt : ∀ rep ∈ reports, Num (div (ofInt rep.rtt) (ofInt 1000000))
  draws : ∀ i (n : Int), 0 ≤ n → 0 ≤ trunc (mul (d.rand i) (ofInt n))

/-- Exact arithmetic: a prediction is at least 1. -/
theorem finiteArith_rat : FiniteArith (fun _ : ℚ => True) fun p => 1 ≤ p where
  price _ _ _ _ := by
    show (1 : ℚ) ≤ Max.max _ ((1 : Int) : ℚ)
    simp
  overhead _ _ := by
    show (1 : ℚ) ≤ Max.max _ ((1 : Int) : ℚ)
    simp
  min hp hq := by
    show (1 : ℚ) ≤ Min.min _ _
    exact le_min hp hq
  not_above {p} hp := by
    show decide (p * ((125 : Int) / (100 : Int)) < p) = false
    have : p ≤ p * ((125 : Int) / (100 : Int)) := by
      push_cast
      linarith
    simpa using this
  within {p} hp := by
    show decide (p ≤ p * ((125 : Int) / (100 : Int))) = true
    have : p ≤ p * ((125 : Int) / (100 : Int)) := by
      push_cast
      linarith
    simpa using this
  weighs {p} hp := by
    show decide (((1 : Int) : ℚ) / (p * p * p) = 0) = false
    have hpos : (0 : ℚ) < p := by linarith
    simp [hpos.ne']

/-! ### The median -/

theorem mem_sinkDown [Float64 F] {x y : F} {sorted : List F} :
    y ∈ sinkDown x sorted ↔ y = x ∨ y ∈ sorted := by
  induction sorted with
  | nil => simp [sinkDown]
  | cons z sorted ih =>
    unfold sinkDown
    split
    · simp only [mem_cons, ih]
      tauto
    · simp

theorem length_sinkDown [Float64 F] (x : F) (sorted : List F) :
    (sinkDown x sorted).length = sorted.length + 1 := by
  induction sorted with
  | nil => rfl
  | cons z sorted ih =>
    unfold sinkDown
    split <;> simp [ih]

/-- The insertion sort of `median` from a sorted part. -/
theorem mem_foldl_sinkDown [Float64 F] {y : F} (xs sorted : List F) :
    y ∈ xs.foldl (fun sorted x => sinkDown x sorted) sorted ↔ y ∈ xs ∨ y ∈ sorted := by
  induction xs generalizing sorted with
  | nil => simp
  | cons x xs ih =>
    rw [foldl_cons, ih, mem_sinkDown, mem_cons]
    tauto

theorem length_foldl_sinkDown [Float64 F] (xs sorted : List F) :
    (xs.foldl (fun sorted x => sinkDown x sorted) sorted).length = xs.length + sorted.length := by
  induction xs generalizing sorted with
  | nil => simp
  | cons x xs ih =>
    rw [foldl_cons, ih, length_sinkDown, length_cons]
    omega

variable {xs : List F}

theorem median_mem [Float64 F] {m : F} (h : median xs = some m) : m ∈ xs := by
  have hmem := mem_of_getElem? h
  rw [mem_reverse, mem_foldl_sinkDown] at hmem
  simpa using hmem

theorem median_isSome [Float64 F] (h : xs ≠ []) : ∃ m, median xs = some m := by
  have hlen : xs.length / 2 <
      (xs.foldl (fun sorted x => sinkDown x sorted) []).reverse.length := by
    rw [length_reverse, length_foldl_sinkDown]
    have := length_pos_iff.2 h
    simp only [length_nil]
    omega
  exact ⟨_, List.getElem?_eq_getElem hlen⟩

/-! ### The choice -/

section Choice

variable [Float64 F] {Num Price : F → Prop} {preds : List (ScoredCand F × F)}

/-- The best prediction is one of them. -/
theorem bestPred_mem (h : preds ≠ []) : ∃ q ∈ preds, bestPred preds = q.2 := by
  cases preds with
  | nil => exact absurd rfl h
  | cons q rest =>
    obtain ⟨cand, p⟩ := q
    refine List.foldlRecOn (motive := fun best => ∃ q ∈ (cand, p) :: rest, best = q.2) rest _
      ⟨_, mem_cons_self, rfl⟩ ?_
    intro best hbest q hq
    split
    · exact ⟨q, mem_cons_of_mem _ hq, rfl⟩
    · exact hbest

/-- The band has a member: the best candidate itself. -/
theorem chooseBand_isSome (harith : FiniteArith Num Price) {self : String} {key : UInt64} {r : F}
    (hne : preds ≠ []) (hprice : ∀ q ∈ preds, Price q.2) :
    ∃ cand, chooseBand self key r preds = some cand := by
  obtain ⟨best, hbest, heq⟩ := bestPred_mem hne
  have hbestPrice := hprice best hbest
  unfold chooseBand
  rw [heq]
  dsimp only
  split
  · obtain ⟨-, habove⟩ | ⟨q, -, hcand⟩ := bandSession_cases (rfl : bandSession self key _ preds = _)
    · cases (habove best hbest).symm.trans (harith.not_above hbestPrice)
    · exact ⟨_, hcand⟩
  split
  · split
    · exact ⟨_, rfl⟩
    · refine (drawWeighted_cases rfl).elim (fun hheld => ?_) fun ⟨_, _, _, hcand⟩ => ⟨_, hcand⟩
      have hweight := hheld.2 _ (mem_map_of_mem hbest)
      simp only [harith.within hbestPrice, if_true] at hweight
      cases hweight.symm.trans (harith.weighs hbestPrice)
  · exact absurd rfl hne

theorem chooseLearning_isSome {r : F} {learning : List (ScoredCand F)} (hne : learning ≠ [])
    (hdraw : 0 ≤ trunc (mul r (ofInt learning.length))) :
    ∃ cand, chooseLearning r learning = some cand := by
  have hlen := length_pos_iff.2 hne
  unfold chooseLearning
  dsimp only
  have hlt : (Min.min (trunc (mul r (ofInt learning.length)))
      ((learning.length : Int) - 1)).toNat < learning.length := by omega
  rw [if_neg (by omega), List.getElem?_eq_getElem hlt]
  exact ⟨_, rfl⟩

end Choice

/-! ### The figures of a scan -/

section Figures

variable [Float64 F] {Num Price : F → Prop} {c : Config β} {env : Env β F} {d : Draw F}
variable {req : Request F} {reports : List Report}

/-- Every figure the scan holds is a number. -/
structure ScoredScan.Numeric (Num : F → Prop) (s : ScoredScan F) : Prop where
  cands : ∀ cand ∈ s.cands, Num cand.ov ∧ Num cand.rate ∧ Num cand.rttMs
  pool : ∀ p ∈ s.pool, Num p.1 ∧ Num p.2

variable {memo : Memo} {now : Int} {rep : Report} {slots : Slots β} {localHealthy : Bool}

omit [Float64 F] in
/-- A peer answers with its report's entry for the model. -/
theorem peerFree_entry {mc : ModelCapacity} {f : Int}
    (h : (peerFree c req rep now slots memo).2 = some (mc, f)) : rep.model req.model = some mc := by
  rw [peerFree_eq, peerAnswer] at h
  split at h
  · cases h
  obtain ⟨mc', hentry, h⟩ := Option.bind_eq_some_iff.1 h
  split at h
  · cases h
  · cases h
    exact hentry

variable (hin : FiniteInputs Num env d req reports)
include hin

theorem ScoredScan.Numeric.note {s : ScoredScan F} (hs : s.Numeric Num) (hrep : rep ∈ reports) :
    (s.note rep (peerFree c req rep now slots memo).2).Numeric Num := by
  unfold ScoredScan.note
  split
  · exact hs
  rename_i mc f hpf
  obtain ⟨hov, hrate, -⟩ := hin.scores rep hrep mc (peerFree_entry hpf)
  have hpool : ∀ p ∈ (if hasScore mc = true ∧ s.pool.length < maxScored then
      s.pool ++ [(ofInt mc.ttftOverheadMs, ofInt mc.prefillMsPer1k)] else s.pool),
      Num p.1 ∧ Num p.2 := by
    intro p hp
    split at hp
    · rcases mem_append.1 hp with hp | hp
      · exact hs.pool p hp
      · rw [mem_singleton] at hp
        exact hp ▸ ⟨hov, hrate⟩
    · exact hs.pool p hp
  dsimp only
  split
  · exact ⟨hs.cands, hpool⟩
  · refine ⟨?_, hpool⟩
    intro cand hcand
    rcases mem_append.1 hcand with hcand | hcand
    · exact hs.cands cand hcand
    · rw [mem_singleton] at hcand
      exact hcand ▸ ⟨hov, hrate, hin.rtt rep hrep⟩

theorem ScoredScan.Numeric.start (backends : List β) (localEligible : Bool) (slots : Slots β) :
    (ScoredScan.start c env req backends localEligible slots).Numeric Num := by
  unfold ScoredScan.start
  dsimp only
  cases hown : env.localScore req.model with
  | none =>
    refine ⟨?_, by simp⟩
    intro cand hcand
    split at hcand
    · rw [mem_singleton] at hcand
      exact hcand ▸ ⟨hin.zero, hin.zero, hin.zero⟩
    · cases hcand
  | some p =>
    obtain ⟨hov, hrate⟩ := hin.own p hown
    refine ⟨?_, by simp [hov, hrate]⟩
    intro cand hcand
    split at hcand
    · rw [mem_singleton] at hcand
      exact hcand ▸ ⟨hov, hrate, hin.zero⟩
    · cases hcand

/-- The import costs of the members are numbers. -/
theorem kvMembers_num (p : String × KVMember)
    (hp : p ∈ kvMembers c env req.model localHealthy reports now) : Num (ofInt p.2.2) := by
  unfold kvMembers at hp
  dsimp only at hp
  revert p
  refine List.foldlRecOn (motive := fun members : List (String × KVMember) =>
    ∀ p ∈ members, Num (ofInt p.2.2)) reports _ ?_ ?_
  · intro p hp
    split at hp
    · rename_i g imp hown
      split at hp
      · rw [mem_singleton] at hp
        exact hp ▸ hin.ownImport (g, imp) hown
      · cases hp
    · cases hp
  · intro members hmembers rep hrep
    split
    · exact hmembers
    split
    · rename_i mc hentry
      split
      · intro p hp
        rcases mem_append.1 hp with hp | hp
        · exact hmembers p (mem_filter.1 hp).1
        · rw [mem_singleton] at hp
          exact hp ▸ (hin.scores rep hrep mc hentry).2.2
      · exact hmembers
    · exact hmembers

theorem warm_num {w : WarmPair F} (h : warm c env req localHealthy reports now memo = some w) :
    Num w.importMsPer1k := by
  obtain ⟨-, -, h⟩ := Option.bind_eq_some_iff.1 h
  obtain ⟨last, -, h⟩ := Option.bind_eq_some_iff.1 h
  obtain ⟨home, -, h⟩ := Option.bind_eq_some_iff.1 h
  cases h
  -- The group's median is one of the members' costs.
  have hmedian : Num ((median ((((kvMembers c env req.model localHealthy reports now).filter
      fun p => p.2.1 == home.1).filter fun p => decide (0 < p.2.2)).map
      fun p => ofInt (F := F) p.2.2)).getD (ofInt defaultImportMsPer1k)) := by
    cases hm : median ((((kvMembers c env req.model localHealthy reports now).filter
      fun p => p.2.1 == home.1).filter fun p => decide (0 < p.2.2)).map
      fun p => ofInt (F := F) p.2.2) with
    | none => exact hin.default
    | some m =>
      obtain ⟨p, hp, rfl⟩ := mem_map.1 (median_mem hm)
      exact kvMembers_num hin p (mem_filter.1 (mem_filter.1 hp).1).1
  dsimp only
  split
  · rename_i g cost hlookup
    split
    · obtain ⟨before, after, heq, -⟩ := lookup_eq_some_iff.1 hlookup
      have hmember : ∃ name, (name, g, cost) ∈
          kvMembers c env req.model localHealthy reports now :=
        ⟨_, by rw [heq]; exact mem_append_right _ mem_cons_self⟩
      obtain ⟨name, hmember⟩ := hmember
      exact kvMembers_num hin _ hmember
    · exact hmedian
  · exact hmedian

end Figures

/-! ### No panic -/

section NoPanic

variable [Float64 F] {Num Price : F → Prop} {c : Config β} {env : Env β F} {d : Draw F}
variable {req : Request F} {reports : List Report} {w : Option (WarmPair F)} {rt : Router β}

/-- Every prediction is a price, warm or cold, with a score or at the median. -/
theorem predict_price (harith : FiniteArith Num Price) (hw : ∀ p, w = some p → Num p.importMsPer1k)
    (hestK : Num req.estK) {medOv medRate : F} (hmedOv : Num medOv) (hmedRate : Num medRate)
    {cands : List (ScoredCand F)}
    (hcands : ∀ cand ∈ cands, Num cand.ov ∧ Num cand.rate ∧ Num cand.rttMs) {q : ScoredCand F × F}
    (hq : q ∈ predict c.self req.estK w medOv medRate cands) : Price q.2 := by
  obtain ⟨cand, hcand, rfl⟩ := mem_map.1 hq
  obtain ⟨hov, hrate, hrtt⟩ := hcands cand hcand
  have hov' : Num (if cand.scored then cand.ov else medOv) := by split <;> assumption
  have hrate' : Num (if cand.scored then cand.rate else medRate) := by split <;> assumption
  have hcold := harith.price hov' hrate' hestK hrtt
  dsimp only
  unfold warmPred
  split
  · exact hcold
  · rename_i p
    split
    · exact harith.min hcold (harith.overhead hov' hrtt)
    split
    · exact harith.min hcold (harith.price hov' (hw p rfl) hestK hrtt)
    · exact hcold

/-- **The scored choice chooses.** -/
theorem chooseScored_isSome (harith : FiniteArith Num Price)
    (hin : FiniteInputs Num env d req reports) (hw : ∀ p, w = some p → Num p.importMsPer1k)
    {s : ScoredScan F} (hs : s.Numeric Num) (hpool : s.pool ≠ []) (hcands : s.cands ≠ []) :
    ∃ cand, chooseScored c d req w s = some cand := by
  obtain ⟨medOv, hmedOv⟩ : ∃ m, median (s.pool.map Prod.fst) = some m :=
    median_isSome (by simpa using hpool)
  obtain ⟨medRate, hmedRate⟩ : ∃ m, median (s.pool.map Prod.snd) = some m :=
    median_isSome (by simpa using hpool)
  have hov : Num medOv := by
    obtain ⟨p, hp, rfl⟩ := mem_map.1 (median_mem hmedOv)
    exact (hs.pool p hp).1
  have hrate : Num medRate := by
    obtain ⟨p, hp, rfl⟩ := mem_map.1 (median_mem hmedRate)
    exact (hs.pool p hp).2
  have hband : ∀ r, ∃ cand, chooseBand c.self req.sessionKey r
      (predict c.self req.estK w medOv medRate s.cands) = some cand := by
    intro r
    refine chooseBand_isSome harith ?_ fun q hq =>
      predict_price harith hw hin.estK hov hrate hs.cands hq
    simpa [predict] using hcands
  unfold chooseScored
  rw [hmedOv, hmedRate]
  dsimp only [Option.bind_eq_bind, Option.bind_some]
  split
  · rename_i htrickle
    split
    · exact chooseLearning_isSome htrickle.1 (hin.draws 1 _ (by omega))
    · exact hband _
  · exact hband _

variable [DecidableEq β]

theorem pickScored_no_panic (harith : FiniteArith Num Price)
    (hin : FiniteInputs Num env d req reports) {backends : List β} {localEligible : Bool}
    {rt' : Router β} {e : PickErr} :
    pickScored c env d req backends localEligible reports rt ≠ (rt', some (.error e)) := by
  intro h
  have hnumeric := (scanPeers_invariant c req rt.slots d.scoredAt ScoredScan.note rt.memo
    (ScoredScan.Numeric Num) (.start (c := c) hin backends localEligible rt.slots)
    fun s rep memo hs hrep _ => hs.note hin hrep).1
  unfold pickScored at h
  dsimp only at h
  split at h
  · cases h
  rename_i hsome
  split at h
  · rename_i hnone
    obtain ⟨cand, hcand⟩ := chooseScored_isSome (c := c) harith hin (fun p hp => warm_num hin hp)
      hnumeric (not_or.1 hsome).1 (not_or.1 hsome).2
    rw [hcand] at hnone
    cases hnone
  · cases h

omit [DecidableEq β] in
theorem tryPick_no_panic {on : Bool} {pick : Router β → Router β × Option (Lease β)}
    {next : Router β → Router β × Except PickErr (Lease β)}
    (hnext : ∀ rt, (next rt).2 ≠ .error .panic) : (tryPick on pick next rt).2 ≠ .error .panic := by
  unfold tryPick
  split
  · split
    · nofun
    · exact hnext _
  · exact hnext rt

theorem pickPerformance_no_panic (harith : FiniteArith Num Price) {a : Admitted β F}
    (hin : FiniteInputs Num env d a.req reports) (rt : Router β) :
    (pickPerformance c env d a reports rt).2 ≠ .error .panic := by
  have hfirst : ∀ rt, (pickLocalFirst c env d a reports rt).2 ≠ .error .panic :=
    fun rt => tryPick_no_panic fun rt => tryPick_no_panic fun rt => nofun
  unfold pickPerformance
  split
  · split
    · nofun
    · nofun
    · rename_i heq
      exact absurd heq (pickScored_no_panic harith hin)
    · exact tryPick_no_panic hfirst
  · exact hfirst rt

end NoPanic

end Viiwork.Route
