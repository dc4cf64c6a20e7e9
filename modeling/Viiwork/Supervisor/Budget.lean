import Viiwork.Supervisor.Ladder

/-!
# Viiwork.Supervisor.Budget

The respawn budget of a ladder: at most `MaxRespawns` respawns between two refills, then
the backend is dead for good; and a refill needs ten minutes of unbroken health.

The budget follows from what one call does to the count of respawns (`call_respawns`).
For the refill the state carries only the instant `healthySince`, so the invariant
(`Unbroken`) says which calls stand behind it.
-/

namespace Viiwork.Supervisor

open List

namespace Ladder

variable {l : Ladder} {c : Call} {calls : List Call}

/-! ### One call -/

@[simp] theorem giveUp_cfg (l : Ladder) (now : Time) (cause : String) (alive : Bool)
    (inFlight : Int) : (l.giveUp now cause alive inFlight).2.cfg = l.cfg := by
  rw [giveUp_eq]
  split_ifs
  · exact defer_cfg l now _
  · exact spend_cfg l _

/-- A give-up leaves the count alone or spends one respawn of it. -/
theorem giveUp_respawns (l : Ladder) (now : Time) (cause : String) (alive : Bool)
    (inFlight : Int) :
    let r := l.giveUp now cause alive inFlight
    (r.1 = .respawn ∧ l.respawns < l.cfg.maxRespawns ∧ r.2.respawns = l.respawns + 1) ∨
      (r.1 = .markDead ∧ l.cfg.maxRespawns ≤ l.respawns ∧ r.2.state = .dead ∧
        r.2.respawns = l.respawns) ∨
      (r.1 = .none ∧ r.2.respawns = l.respawns) := by
  rw [giveUp_eq]
  split_ifs with hwait
  · refine .inr (.inr ⟨rfl, ?_⟩)
    simp only [defer]
    split_ifs <;> rfl
  · rcases spend_eq l (l.reported cause) with ⟨hle, hact, hdead, hresp⟩ | ⟨hlt, hact, -, hresp⟩
    · exact .inr (.inl ⟨hact, hle, hdead, hresp⟩)
    · exact .inl ⟨hact, hlt, hresp⟩

theorem struck_respawns (l : Ladder) (alive : Bool) :
    (l.struck alive).respawns = l.respawns ∧ (l.struck alive).cfg = l.cfg := by
  simp only [struck, strike]
  split_ifs <;> exact ⟨rfl, rfl⟩

/-- A ready probe keeps the count or, after ten minutes of health, clears it. -/
theorem ready_respawns (l : Ladder) (now : Int) :
    (l.ready now).respawns = l.respawns ∨
      (l.state ≠ .starting ∧ l.state ≠ .unhealthy ∧ 0 < l.respawns ∧
        respawnRefill.ns ≤ now - l.healthySince ∧ (l.ready now).respawns = 0) := by
  by_cases hstart : l.state = .starting
  · exact .inl (by simp [Ladder.ready, hstart, clearTransient])
  by_cases hun : l.state = .unhealthy
  · -- the instant of health is `now` itself, so nothing refills
    have hself : Time.sub now now < respawnRefill.ns := by
      rw [Time.sub_lt_iff (by decide), sub_self]
      decide
    left
    simp [Ladder.ready, recover, hun, clearTransient, not_le.2 hself]
  by_cases hfill : 0 < l.respawns ∧ respawnRefill.ns ≤ Time.sub now l.healthySince
  · refine .inr ⟨hstart, hun, hfill.1, ?_, ?_⟩
    · have hsub := hfill.2
      rwa [← not_lt, Time.sub_lt_iff (by decide), not_lt] at hsub
    · simp [Ladder.ready, recover, hstart, hun, clearTransient, hfill]
  · left
    simp only [Ladder.ready, recover, hstart, hun, clearTransient, if_false]
    rw [if_neg hfill]

/-- The call clears a count that is not zero. -/
def Refills (l : Ladder) (c : Call) : Prop := (l.call c).respawns < l.respawns

/-- **What a call does to the budget.** -/
theorem call_respawns (l : Ladder) (c : Call) :
    (l.action c = .respawn ∧ l.respawns < l.cfg.maxRespawns ∧
        (l.call c).respawns = l.respawns + 1) ∨
      (l.action c = .markDead ∧ l.cfg.maxRespawns ≤ l.respawns ∧ (l.call c).state = .dead ∧
        (l.call c).respawns = l.respawns) ∨
      (l.action c = .none ∧ (l.call c).respawns = l.respawns) ∨
      (l.action c = .none ∧ 0 < l.respawns ∧ (l.call c).respawns = 0 ∧
        ∃ now alive inFlight, c = .observe now true alive inFlight ∧ l.state = .healthy ∧
          l.condemned = "" ∧ respawnRefill.ns ≤ now - l.healthySince) := by
  cases c with
  | observe now rd alive inFlight =>
    simp only [action, call]
    cases hdue : l.due now rd alive with
    | some cause =>
      rw [observe_of_due hdue]
      have hg := giveUp_respawns (l.struck alive) now cause alive (l.waitsFor inFlight)
      obtain ⟨hresp, hcfg⟩ := struck_respawns l alive
      rw [hresp, hcfg] at hg
      rcases hg with hg | hg | hg
      · exact .inl hg
      · exact .inr (.inl hg)
      · exact .inr (.inr (.inl hg))
    | none =>
      rw [observe_of_not_due hdue]
      split_ifs with hdead hrd
      · exact .inr (.inr (.inl ⟨rfl, rfl⟩))
      · have hcond : l.condemned = "" := by
          by_contra hne
          simp [due, hdead, hne] at hdue
        rcases ready_respawns l now with h | ⟨hns, hnu, hpos, hlong, hzero⟩
        · exact .inr (.inr (.inl ⟨rfl, h⟩))
        · have hhealthy : l.state = .healthy := by
            cases hst : l.state <;> simp_all
          exact .inr (.inr (.inr ⟨rfl, hpos, hzero, now, alive, inFlight, by rw [hrd],
            hhealthy, hcond, hlong⟩))
      · exact .inr (.inr (.inl ⟨rfl, rfl⟩))
      · refine .inr (.inr (.inl ⟨rfl, ?_⟩))
        simp only [strike]
        split_ifs <;> rfl
  | noteHardFailure | markDead => exact .inr (.inr (.inl ⟨rfl, rfl⟩))
  | condemn cause =>
    refine .inr (.inr (.inl ⟨rfl, ?_⟩))
    simp only [call, condemn]
    split_ifs <;> rfl
  | restarted now =>
    refine .inr (.inr (.inl ⟨rfl, ?_⟩))
    simp only [call, restarted]
    split_ifs <;> rfl

@[simp] theorem call_cfg (l : Ladder) (c : Call) : (l.call c).cfg = l.cfg := by
  cases c with
  | observe now rd alive inFlight =>
    simp only [call]
    cases hdue : l.due now rd alive with
    | some cause => rw [observe_of_due hdue, giveUp_cfg, (struck_respawns l alive).2]
    | none =>
      rw [observe_of_not_due hdue]
      split_ifs with hdead hrd hstart
      · rfl
      · simp only [Ladder.ready, recover]
        split_ifs <;> rfl
      · rfl
      · exact strike_cfg l alive
  | noteHardFailure | markDead => rfl
  | condemn cause =>
    simp only [call, condemn]
    split_ifs <;> rfl
  | restarted now =>
    simp only [call, restarted]
    split_ifs <;> rfl

/-- Dead is for good. -/
theorem call_dead (hdead : l.state = .dead) (c : Call) :
    l.action c = .none ∧ (l.call c).state = .dead := by
  cases c <;>
    simp [action, call, observe, noteHardFailure, condemn, markDead, restarted, hdead]

/-! ### The budget over a run -/

@[simp] theorem after_cfg (l : Ladder) (calls : List Call) : (l.after calls).cfg = l.cfg :=
  after_invariant (P := fun _ l' => l'.cfg = l.cfg) rfl fun pre c _ _ h => by rw [call_cfg, h]

/-- None of the calls refills the budget. -/
def RefillFree (l : Ladder) : List Call → Prop
  | [] => True
  | c :: calls => ¬ l.Refills c ∧ (l.call c).RefillFree calls

/-- Without a refill the count grows by the respawns returned. -/
theorem after_respawns (h : l.RefillFree calls) :
    (l.after calls).respawns = l.respawns + (l.actions calls).count .respawn := by
  induction calls generalizing l with
  | nil => simp [actions]
  | cons c calls ih =>
    obtain ⟨hno, hrest⟩ := h
    rw [after_cons, ih hrest, actions, count_cons]
    rcases call_respawns l c with ⟨hact, -, hresp⟩ | ⟨hact, -, -, hresp⟩ | ⟨hact, hresp⟩ |
      ⟨-, hpos, hzero, -⟩
    · rw [hact, hresp, if_pos (by rfl)]
      push_cast
      ring
    · rw [hact, hresp, if_neg (by decide)]
      simp
    · rw [hact, hresp, if_neg (by decide)]
      simp
    · exact absurd (show (l.call c).respawns < l.respawns by omega) hno

/-- The count stays within the budget. -/
theorem respawns_le {cfg : LadderConfig} (hmax : 0 ≤ cfg.maxRespawns) (start : Time)
    (calls : List Call) :
    let l := (new cfg start).after calls
    0 ≤ l.respawns ∧ l.respawns ≤ cfg.maxRespawns := by
  refine after_invariant (P := fun _ l => 0 ≤ l.respawns ∧ l.respawns ≤ cfg.maxRespawns)
    ⟨le_rfl, hmax⟩ fun pre c _ _ h => ?_
  have hcfg : ((new cfg start).after pre).cfg = cfg := after_cfg _ pre
  rcases call_respawns ((new cfg start).after pre) c with ⟨-, hlt, hresp⟩ | ⟨-, -, -, hresp⟩ |
    ⟨-, hresp⟩ | ⟨-, -, hzero, -⟩
  · rw [hcfg] at hlt
    rw [hresp]
    omega
  · rwa [hresp]
  · rwa [hresp]
  · rw [hzero]
    exact ⟨le_rfl, hmax⟩

theorem after_dead (hdead : l.state = .dead) (calls : List Call) :
    (l.after calls).state = .dead ∧ ∀ a ∈ l.actions calls, a = .none := by
  induction calls generalizing l with
  | nil => exact ⟨hdead, by simp [actions]⟩
  | cons c calls ih =>
    obtain ⟨hact, hdead'⟩ := call_dead hdead c
    obtain ⟨hstate, hall⟩ := ih hdead'
    refine ⟨hstate, fun a ha => ?_⟩
    rcases mem_cons.1 ha with rfl | ha
    · exact hact
    · exact hall a ha

/-! ### What stands behind a refill -/

end Ladder

namespace Call

/-- The call breaks no health: a ready probe, or a failure noted for the next probe. -/
def Quiet : Call → Prop
  | .observe _ ready _ _ => ready = true
  | .noteHardFailure => True
  | _ => False

/-- When the call observes. -/
def observedAt : Call → Option Time
  | .observe now _ _ _ => some now
  | _ => none

/-- The observations are at non-decreasing times. -/
def Timely (calls : List Call) : Prop := (calls.filterMap observedAt).Pairwise (· ≤ ·)

/-- No call withdraws a condemnation by setting an empty cause. -/
def Condemning (calls : List Call) : Prop := ∀ cause, .condemn cause ∈ calls → cause ≠ ""

/-- No observation is later than one after it. -/
theorem Timely.le {pre post : List Call} {t t' : Time} {rd rd' alive alive' : Bool}
    {n n' : Int} (h : Timely (pre ++ .observe t rd alive n :: post))
    (hmem : .observe t' rd' alive' n' ∈ pre) : t' ≤ t := by
  rw [Timely, filterMap_append, pairwise_append] at h
  refine h.2.2 t' (mem_filterMap.2 ⟨_, hmem, rfl⟩) t ?_
  exact mem_filterMap.2 ⟨_, mem_cons_self, rfl⟩

end Call

namespace Ladder

variable {l : Ladder} {calls : List Call}

/-- The state is healthy after an observation only if the probe was ready. -/
theorem ready_of_healthy {now : Time} {rd alive : Bool} {inFlight : Int}
    (h : (l.observe now rd alive inFlight).2.state = .healthy) :
    rd = true ∧ l.condemned = "" ∧ l.state ≠ .dead ∧
      l.observe now rd alive inFlight = (.none, l.ready now) := by
  cases hdue : l.due now rd alive with
  | some cause =>
    exfalso
    have hstate : (l.struck alive).state ≠ .healthy := by
      simp only [due] at hdue
      simp only [struck, strike]
      split_ifs at hdue ⊢ <;> simp_all
    rw [observe_of_due hdue, giveUp_eq] at h
    split_ifs at h with hwait
    · simp only [defer] at h
      split_ifs at h <;> exact hstate h
    · rcases spend_eq (l.struck alive) ((l.struck alive).reported cause) with
        ⟨-, -, hdead, -⟩ | ⟨-, -, hsame, -⟩
      · rw [hdead] at h
        cases h
      · exact hstate (hsame ▸ h)
  | none =>
    have hobs : l.observe now rd alive inFlight = _ := observe_of_not_due hdue
    rw [hobs] at h ⊢
    split_ifs at h ⊢ with hdead hrd hstart
    · rw [hdead] at h
      cases h
    · refine ⟨hrd, ?_, hdead, rfl⟩
      by_contra hne
      simp [due, hdead, hne] at hdue
    · rw [hstart] at h
      cases h
    · simp only [strike] at h
      split_ifs at h

theorem ready_healthySince (l : Ladder) (now : Time) (hdead : l.state ≠ .dead) :
    (l.ready now).state = .healthy ∧
      (l.ready now).healthySince = if l.state = .healthy then l.healthySince else now := by
  simp only [Ladder.ready, recover, clearTransient]
  cases hstate : l.state <;> simp_all <;> split_ifs <;> simp

/-- The backend has been healthy since a ready probe at `healthySince`, without a break. -/
def Unbroken (l₀ : Ladder) (calls : List Call) (since : Time) : Prop :=
  ∃ before alive inFlight mid, calls = before ++ .observe since true alive inFlight :: mid ∧
    (∀ c ∈ mid, c.Quiet) ∧
    ∀ m, m <+: mid → (l₀.after (before ++ .observe since true alive inFlight :: m)).state = .healthy

variable {c : Call}

/-- One more quiet call. -/
theorem Unbroken.snoc {l₀ : Ladder} {since : Time} (h : Unbroken l₀ calls since) (hquiet : c.Quiet)
    (hstate : (l₀.after (calls ++ [c])).state = .healthy) : Unbroken l₀ (calls ++ [c]) since := by
  obtain ⟨before, alive, inFlight, mid, rfl, hmid, hpre⟩ := h
  refine ⟨before, alive, inFlight, mid ++ [c], by simp, ?_, ?_⟩
  · intro c' hc'
    rcases mem_append.1 hc' with hc' | hc'
    · exact hmid c' hc'
    · rwa [mem_singleton.1 hc']
  · intro m hm
    rcases prefix_concat_iff.1 hm with rfl | hm
    · simpa using hstate
    · exact hpre m hm

/-- **The invariant of a healthy ladder.** -/
theorem unbroken_after {cfg : LadderConfig} {start : Time} (hcond : Call.Condemning calls) :
    let l := (new cfg start).after calls
    l.state = .healthy → l.condemned = "" → Unbroken (new cfg start) calls l.healthySince := by
  refine after_invariant
    (P := fun pre l => l.state = .healthy → l.condemned = "" →
      Unbroken (new cfg start) pre l.healthySince) (fun h => by cases h) ?_
  intro pre c post heq ih hstate hcondemned
  have hafter : (new cfg start).after (pre ++ [c]) = ((new cfg start).after pre).call c := by simp
  set l := (new cfg start).after pre
  cases c with
  | observe now rd alive inFlight =>
    obtain ⟨rfl, hcond', hdead, hobs⟩ := ready_of_healthy hstate
    obtain ⟨-, hsince⟩ := ready_healthySince l now hdead
    simp only [call, hobs] at hstate hafter ⊢
    rw [hsince]
    split_ifs with hhealthy
    · exact (ih hhealthy hcond').snoc rfl (by rw [hafter]; exact hstate)
    · -- health starts with this probe
      refine ⟨pre, alive, inFlight, [], rfl, by simp, fun m hm => ?_⟩
      rw [prefix_nil.1 hm, hafter]
      exact hstate
  | noteHardFailure =>
    exact (ih hstate hcondemned).snoc trivial (by rw [hafter]; exact hstate)
  | condemn cause =>
    exfalso
    simp only [call, condemn] at hstate hcondemned
    split_ifs at hstate hcondemned with hdead
    · exact hcond cause (by simp [heq]) hcondemned
    · exact hdead (by rw [hstate]; decide)
  | markDead cause => cases hstate
  | restarted now =>
    exfalso
    simp only [call, restarted] at hstate
    split_ifs at hstate with hdead
    · rw [hdead] at hstate
      cases hstate
    · cases hstate

/-! ### The respawn budget -/

/-- A count that has reached the budget makes the next give-up the last. -/
theorem markDead_of_spent (hspent : l.respawns = l.cfg.maxRespawns) (hact : l.action c ≠ .none) :
    l.action c = .markDead := by
  rcases call_respawns l c with ⟨-, hlt, -⟩ | ⟨hdead, -⟩ | ⟨hnone, -⟩ | ⟨hnone, -⟩
  · omega
  · exact hdead
  · exact absurd hnone hact
  · exact absurd hnone hact

theorem dead_of_markDead (hact : l.action c = .markDead) : (l.call c).state = .dead := by
  rcases call_respawns l c with ⟨h, -⟩ | ⟨-, -, hdead, -⟩ | ⟨h, -⟩ | ⟨h, -⟩
  · rw [h] at hact
    cases hact
  · exact hdead
  · rw [h] at hact
    cases hact
  · rw [h] at hact
    cases hact

/-- **The respawn budget.** In every use of a ladder in which no condemnation is withdrawn:
calls without a refill return at most `MaxRespawns` respawns, and once they have, the next
give-up marks the backend dead; after that no observation returns an action and the ladder
stays dead; and a refill comes only with a ready probe that ends ten minutes or more in
which every observation was ready, the backend healthy throughout. -/
theorem respawn_budget {cfg : LadderConfig} (hmax : 0 ≤ cfg.maxRespawns) (start : Time)
    {calls : List Call} (htimes : Call.Timely calls) (hcond : Call.Condemning calls) :
    let l := new cfg start
    (∀ pre seg post, calls = pre ++ seg ++ post → (l.after pre).RefillFree seg →
      (((l.after pre).actions seg).count .respawn : Int) ≤ cfg.maxRespawns ∧
      ((((l.after pre).actions seg).count .respawn : Int) = cfg.maxRespawns →
        ∀ c rest, post = c :: rest → (l.after (pre ++ seg)).action c ≠ .none →
          (l.after (pre ++ seg)).action c = .markDead)) ∧
    (∀ pre c post, calls = pre ++ c :: post → (l.after pre).action c = .markDead →
      (∀ m, m <+: post → (l.after (pre ++ c :: m)).state = .dead) ∧
      ∀ a ∈ (l.after (pre ++ [c])).actions post, a = .none) ∧
    (∀ pre c post, calls = pre ++ c :: post → (l.after pre).Refills c →
      ∃ now alive inFlight before since alive' inFlight' mid,
        c = .observe now true alive inFlight ∧
        pre = before ++ .observe since true alive' inFlight' :: mid ∧
        respawnRefill.ns ≤ now - since ∧
        (∀ t rd a n, .observe t rd a n ∈ before → t ≤ since) ∧
        (∀ c' ∈ mid, c'.Quiet) ∧
        ∀ m, m <+: mid →
          (l.after (before ++ .observe since true alive' inFlight' :: m)).state = .healthy) := by
  intro l
  refine ⟨fun pre seg post heq hfree => ?_, fun pre c post _ hact => ?_,
    fun pre c post heq hfill => ?_⟩
  · have hcount := after_respawns hfree
    have hnonneg : 0 ≤ (l.after pre).respawns := (respawns_le hmax start pre).1
    have hle : ((l.after pre).after seg).respawns ≤ cfg.maxRespawns := by
      rw [← after_append]
      exact (respawns_le hmax start (pre ++ seg)).2
    refine ⟨by omega, fun hall c rest _ hgive => markDead_of_spent ?_ hgive⟩
    rw [after_cfg, after_append]
    show ((l.after pre).after seg).respawns = cfg.maxRespawns
    omega
  · have hdead := dead_of_markDead hact
    refine ⟨fun m _ => ?_, ?_⟩
    · rw [after_append, after_cons]
      exact (after_dead hdead m).1
    · rw [after_append, after_cons, after_nil]
      exact (after_dead hdead post).2
  · rcases call_respawns (l.after pre) c with ⟨-, -, hresp⟩ | ⟨-, -, -, hresp⟩ | ⟨-, hresp⟩ |
      ⟨-, -, -, now, alive, inFlight, rfl, hhealthy, hcond', hlong⟩
    · rw [Refills] at hfill
      omega
    · rw [Refills] at hfill
      omega
    · rw [Refills] at hfill
      omega
    · have hpre : Call.Condemning pre := fun cause hmem => hcond cause (by simp [heq, hmem])
      obtain ⟨before, alive', inFlight', mid, hsplit, hquiet, hstates⟩ :=
        unbroken_after hpre hhealthy hcond'
      refine ⟨now, alive, inFlight, before, _, alive', inFlight', mid, rfl, hsplit, hlong, ?_,
        hquiet, hstates⟩
      rw [heq, hsplit, append_assoc, cons_append] at htimes
      exact fun t rd a n hmem => htimes.le hmem

/-- One respawn allowed, and a grace and a timeout of one nanosecond. -/
def oneRespawn : LadderConfig :=
  ⟨1, nanosecond, 1, nanosecond⟩

/-- A backend that exits, is restarted, stays healthy for ten minutes and exits twice more. -/
def refilled : List Call :=
  [.observe 1 false false 0, .restarted 2, .observe 3 true true 0,
    .observe 600000000003 true true 0,
    .observe 600000000004 false false 0, .restarted 600000000005,
    .observe 600000000006 false false 0, .observe 600000000007 true true 0]

theorem respawn_budget_refilled :
    let l := new oneRespawn 0
    l.actions refilled =
        [.respawn, .none, .none, .none, .respawn, .none, .markDead, .none] ∧
      (l.after (refilled.take 3)).Refills (.observe 600000000003 true true 0) ∧
      (l.after (refilled.take 7)).state = .dead ∧
      ∃ before since alive inFlight mid,
        refilled.take 3 = before ++ .observe since true alive inFlight :: mid ∧
        respawnRefill.ns ≤ 600000000003 - since := by
  have hmax : 0 ≤ oneRespawn.maxRespawns := by decide
  have htimes : Call.Timely refilled := by unfold Call.Timely; decide
  have hcond : Call.Condemning refilled := by unfold Call.Condemning refilled; simp
  have hmain := respawn_budget hmax 0 htimes hcond
  have hfill : ((new oneRespawn 0).after (refilled.take 3)).Refills
      (.observe 600000000003 true true 0) := by unfold Refills; decide +kernel
  refine ⟨by decide +kernel, hfill, ?_, ?_⟩
  · exact (hmain.2.1 (refilled.take 6) (.observe 600000000006 false false 0)
      [.observe 600000000007 true true 0] rfl (by decide +kernel)).1 [] (by simp)
  · obtain ⟨now, alive, inFlight, before, since, alive', inFlight', mid, hc, hpre, hlong, -⟩ :=
      hmain.2.2 (refilled.take 3) _ (refilled.drop 4) rfl hfill
    cases hc
    exact ⟨before, since, alive', inFlight', mid, hpre, hlong⟩

/-- A condemnation that is withdrawn by an empty cause does not break the ten minutes: the
ladder was condemned between the two ready probes and refills all the same. -/
theorem refill_after_withdrawn_condemnation :
    let l := new oneRespawn 0
    let calls : List Call := [.observe 1 false false 0, .restarted 2, .observe 3 true true 0,
      .condemn "not on assigned GPU", .condemn ""]
    (l.after (calls.take 4)).condemned ≠ "" ∧
      (l.after calls).Refills (.observe 600000000003 true true 0) ∧
      ∀ before mid since alive inFlight,
        calls = before ++ .observe since true alive inFlight :: mid →
          .condemn "not on assigned GPU" ∈ mid := by
  refine ⟨by decide +kernel, by unfold Refills; decide +kernel, ?_⟩
  intro before mid since alive inFlight h
  rcases before with _ | ⟨_, _ | ⟨_, _ | ⟨_, _ | ⟨_, _ | ⟨_, _⟩⟩⟩⟩⟩ <;> simp at h
  simp [← h.2.2.2]

end Ladder

end Viiwork.Supervisor
